import TypeHint.Hint.Meaning

/-!
# What reading a hint tells

On the way to the type of a text, names are expanded and looked up and members of unions are
dropped.  Nothing else is told, apart from what the resolver tells.

* `Traced.Tells P x`     every event of a traced computation satisfies `P`
* `Event.ofHint`         the events of reading a hint
* `Ty.hints_ofText`      reading a text tells only these, if the resolver does
-/

namespace TypeHint

namespace Traced

variable {ε ε' α β : Type} {P : Event → Prop}

def Tells (P : Event → Prop) (x : Traced ε α) : Prop := ∀ e ∈ x.log, P e

theorem tells_of_log_nil {x : Traced ε α} (h : x.log = []) : x.Tells P := by
  intro e he
  rw [h] at he
  cases he

theorem tells_pure (a : α) : (pure a : Traced ε α).Tells P := tells_of_log_nil rfl

theorem tells_fail (e : ε) : (fail e : Traced ε α).Tells P := tells_of_log_nil rfl

theorem tells_ofExcept (r : Except ε α) : (ofExcept r).Tells P := tells_of_log_nil rfl

theorem tells_emit {e : Event} (he : P e) : (emit e : Traced ε Unit).Tells P := by
  intro e' h
  rwa [List.mem_singleton.mp h]

theorem Tells.mapError {x : Traced ε α} (hx : x.Tells P) (f : ε → ε') : (x.mapError f).Tells P := hx

theorem Tells.bind {x : Traced ε α} {f : α → Traced ε β} (hx : x.Tells P)
    (hf : ∀ a, (f a).Tells P) : (x >>= f).Tells P := by
  intro e he
  change e ∈ (Traced.bind x f).log at he
  unfold Traced.bind at he
  split at he
  · exact hx e he
  · rename_i a _
    rcases List.mem_append.mp he with he | he
    · exact hx e he
    · exact hf a e he

end Traced

open Traced

def Event.ofHint : Event → Bool
  | .aliasTableBuilt .. | .nameExpanded .. | .objectFound .. | .memberCovered _ | .memberReplaced ..
  | .unionBuilt _ => true
  | _ => false

abbrev Hints {ε α : Type} (x : Traced ε α) : Prop := x.Tells fun e => e.ofHint = true

theorem hints_emit {ε : Type} {e : Event} (he : e.ofHint = true) :
    Hints (emit e : Traced ε Unit) := tells_emit he

namespace Union

variable {h : Hierarchy}

theorem hints_covered (c : Ty) (ts : List Ty) : Hints (covered h c ts) := by
  induction ts with
  | nil => exact tells_pure _
  | cons t ts ih =>
    refine (tells_ofExcept _).bind fun b => ?_
    cases b
    · exact ih
    · exact tells_pure _

theorem hints_uncovered (c : Ty) (ts : List Ty) : Hints (uncovered h c ts) := by
  induction ts with
  | nil => exact tells_pure _
  | cons t ts ih =>
    refine (tells_ofExcept _).bind fun b => ?_
    cases b
    · exact ih.bind fun _ => tells_pure _
    · exact (hints_emit rfl).bind fun _ => ih

theorem hints_keep (kept : List Ty) (c : Ty) : Hints (keep h kept c) := by
  refine (hints_covered c kept).bind fun b => ?_
  cases b
  · exact (hints_uncovered c kept).bind fun _ => tells_pure _
  · exact (hints_emit rfl).bind fun _ => tells_pure _

theorem hints_reduce (kept cs : List Ty) : Hints (reduce h kept cs) := by
  induction cs generalizing kept with
  | nil => exact tells_pure _
  | cons c cs ih => exact (hints_keep kept c).bind ih

theorem hints_collapse (ts : List Ty) : Hints (collapse ts) := by
  unfold collapse
  split
  · exact tells_pure _
  · exact (hints_emit rfl).bind fun _ => tells_pure _

end Union

theorem Ty.hints_unite {h : Hierarchy} (ts : List Ty) : Hints (Ty.unite h ts) := by
  unfold Ty.unite
  split
  · exact tells_fail _
  · exact (Union.hints_reduce _ _).bind Union.hints_collapse

/-- the resolver tells no other events -/
def Resolver.Quiet (resolver : Option Resolver) : Prop :=
  ∀ resolve ∈ resolver, ∀ short, Hints (resolve short)

section

variable {h : Hierarchy} {resolver : Option Resolver}

theorem hints_expandName (hr : Resolver.Quiet resolver) (text : String) :
    Hints (expandName resolver text) := by
  unfold expandName
  split
  · exact tells_pure _
  · split
    · exact tells_pure _
    · exact ((hr _ rfl text).mapError _).bind fun _ => (hints_emit rfl).bind fun _ => tells_pure _

theorem hints_namedType (hr : Resolver.Quiet resolver) (text : String) :
    Hints (namedType h resolver text) := by
  refine (hints_expandName hr text).bind fun _ => (tells_ofExcept _).bind fun _ => ?_
  exact (hints_emit rfl).bind fun _ => tells_pure _

mutual

theorem Hint.hints_meaning (hr : Resolver.Quiet resolver) :
    ∀ hint : Hint, Hints (hint.meaning h resolver)
  | .primitive _ => tells_pure _
  | .named text => hints_namedType hr text
  | .array key item =>
    (Hint.hints_meaning hr key).bind fun _ =>
      (Hint.hints_meaning hr item).bind fun _ => tells_pure _
  | .union parts => (Hint.hints_meanings hr parts).bind Ty.hints_unite
  | .malformed _ _ => tells_fail _

theorem Hint.hints_meanings (hr : Resolver.Quiet resolver) :
    ∀ parts : List Hint, Hints (Hint.meanings h resolver parts)
  | [] => tells_pure _
  | hint :: parts =>
    (Hint.hints_meaning hr hint).bind fun _ =>
      (Hint.hints_meanings hr parts).bind fun _ => tells_pure _

end

theorem Ty.hints_ofText (hr : Resolver.Quiet resolver) (text : String) :
    Hints (Ty.ofText h resolver text) :=
  Hint.hints_meaning hr _

end

end TypeHint
