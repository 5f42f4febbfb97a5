import TypeHint.Event

/-!
# Computations with a trace

A `Traced ε α` is an answer together with the events that happened on the way to it.  A failing
computation keeps the events that came before the failure.  The answer of a sequence depends on
the answers of its parts only (`result_bind`).
-/

namespace TypeHint

structure Traced (ε α : Type) where
  result : Except ε α
  log : List Event

namespace Traced

variable {ε ε' α β : Type}

protected def pure (a : α) : Traced ε α := ⟨.ok a, []⟩

protected def bind (x : Traced ε α) (f : α → Traced ε β) : Traced ε β :=
  match x.result with
  | .error e => ⟨.error e, x.log⟩
  | .ok a => ⟨(f a).result, x.log ++ (f a).log⟩

instance : Monad (Traced ε) where
  pure := Traced.pure
  bind := Traced.bind

def emit (e : Event) : Traced ε Unit := ⟨.ok (), [e]⟩

def fail (e : ε) : Traced ε α := ⟨.error e, []⟩

def ofExcept (r : Except ε α) : Traced ε α := ⟨r, []⟩

def mapError (f : ε → ε') (x : Traced ε α) : Traced ε' α := ⟨x.result.mapError f, x.log⟩

@[simp] theorem result_pure (a : α) : (pure a : Traced ε α).result = .ok a := rfl

@[simp] theorem result_bind (x : Traced ε α) (f : α → Traced ε β) :
    (x >>= f).result = x.result >>= fun a => (f a).result := by
  show (Traced.bind x f).result = _
  unfold Traced.bind
  cases x.result <;> rfl

@[simp] theorem result_emit (e : Event) : (emit e : Traced ε Unit).result = .ok () := rfl

@[simp] theorem result_fail (e : ε) : (fail e : Traced ε α).result = .error e := rfl

@[simp] theorem result_ofExcept (r : Except ε α) : (ofExcept r).result = r := rfl

@[simp] theorem result_mapError (f : ε → ε') (x : Traced ε α) :
    (x.mapError f).result = x.result.mapError f := rfl

end Traced

end TypeHint
