import Mathlib.Logic.Basic

/-!
# Answers that may be errors

* `bind_eq_ok`, `map_eq_ok`   an answer of several steps has an answer of each step behind it
* `FailsOnly E x`             an answer fails in no other way than `E` says
* `bind_congr_of_map`         what is seen of an answer depends on what is seen of its steps
-/

namespace TypeHint

variable {ε ε' α β γ δ : Type}

theorem bind_eq_ok {x : Except ε α} {f : α → Except ε β} {b : β} :
    x >>= f = .ok b ↔ ∃ a, x = .ok a ∧ f a = .ok b := by
  cases x with
  | error e => exact ⟨fun h => (by cases h), fun ⟨_, h, _⟩ => (by cases h)⟩
  | ok a => exact ⟨fun h => ⟨a, rfl, h⟩, fun ⟨_, h, hb⟩ => by cases h; exact hb⟩

theorem map_eq_ok {f : α → β} {x : Except ε α} {b : β} :
    f <$> x = .ok b ↔ ∃ a, x = .ok a ∧ f a = b := by
  cases x with
  | error e => exact ⟨fun h => (by cases h), fun ⟨_, h, _⟩ => (by cases h)⟩
  | ok a =>
    constructor
    · intro h
      exact ⟨a, rfl, Except.ok.inj h⟩
    · rintro ⟨_, h, rfl⟩
      cases h
      rfl

theorem mapError_eq_ok {f : ε → ε'} {x : Except ε α} {a : α} :
    x.mapError f = .ok a ↔ x = .ok a := by
  cases x with
  | error e => exact ⟨fun h => (by cases h), fun h => (by cases h)⟩
  | ok b => exact ⟨fun h => congrArg _ (Except.ok.inj h), fun h => congrArg _ (Except.ok.inj h)⟩

/-! ## ways to fail -/

/-- every error of the answer satisfies `E` -/
def FailsOnly (E : ε → Prop) (x : Except ε α) : Prop := ∀ e, x = .error e → E e

namespace FailsOnly

variable {E : ε → Prop}

theorem ok (a : α) : FailsOnly E (.ok a) := fun _ h => by cases h

theorem error {e : ε} (he : E e) : FailsOnly E (.error e : Except ε α) :=
  fun _ h => Except.error.inj h ▸ he

theorem bind {x : Except ε α} {f : α → Except ε β} (hx : FailsOnly E x)
    (hf : ∀ a, x = .ok a → FailsOnly E (f a)) : FailsOnly E (x >>= f) := by
  cases x with
  | error e => exact fun _ h => hx _ (congrArg _ (Except.error.inj h))
  | ok a => exact hf a rfl

theorem mapError {x : Except ε' α} {f : ε' → ε} (hx : FailsOnly (fun e => E (f e)) x) :
    FailsOnly E (x.mapError f) := by
  cases x with
  | error e => exact .error (hx e rfl)
  | ok a => exact .ok a

end FailsOnly

/-! ## answers that look alike -/

section

variable {f : α → γ}

theorem found_congr {found found' : Option α} {e : ε} (h : found.map f = found'.map f) :
    Except.map f (found.elim (.error e) .ok) = Except.map f (found'.elim (.error e) .ok) := by
  cases found <;> cases found'
  case none.none => rfl
  case some.some => exact congrArg Except.ok (Option.some.inj h)
  all_goals cases h

/-- what `g` sees of the rest of a computation depends on what `f` sees of its first answer -/
theorem bind_congr_of_map {x y : Except ε α} {k k' : α → Except ε β} (g : Except ε β → δ)
    (h : x.map f = y.map f) (hk : ∀ {a b}, f a = f b → g (k a) = g (k' b)) :
    g (x >>= k) = g (y >>= k') := by
  cases x <;> cases y
  case error.error =>
    cases h
    rfl
  case ok.ok => exact hk (Except.ok.inj h)
  all_goals cases h

theorem isOk_map (x : Except ε α) : (x.map f).isOk = x.isOk := by cases x <;> rfl

end

end TypeHint
