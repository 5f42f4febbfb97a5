import Mathlib.Data.List.Basic
import TypeHint.Ty.Assignable

/-!
# Assignability without the comparison of names

`assignable` asks `equal` for the parts of arrays, and `equal` may end in a contradiction.  `fits`
is the same relation with that comparison left out, so it always has an answer.

* `fits h t c`             a value of type `c` may be used where `t` is expected
* `FitsBy h t c`           the ways in which one type fits another, one for each rule
* `fits_iff`               `fits` holds by one of these ways
* `assignable_agrees`      where `assignable` has an answer, it is the answer of `fits`
-/

namespace TypeHint

/-! ## answers of verdicts -/

namespace Verdict

variable {α : Type} {v w : Verdict} {p q : Bool}

/-- the answer of the verdict is `p`, unless it is a contradiction -/
def Agrees (v : Verdict) (p : Bool) : Prop := ∀ r, v = .ok r → p = r

theorem Agrees.ok (p : Bool) : Agrees (.ok p) p := fun _ h => Except.ok.inj h

theorem Agrees.both (hv : Agrees v p) (hw : Agrees w q) : Agrees (both v w) (p && q) := by
  intro r h
  cases v with
  | error e => cases h
  | ok a =>
    rw [hv a rfl]
    cases a with
    | true => exact hw r h
    | false => exact Except.ok.inj h

theorem Agrees.any {f : α → Verdict} {g : α → Bool} {xs : List α}
    (hfg : ∀ x ∈ xs, Agrees (f x) (g x)) : Agrees (any (xs.map f)) (xs.any g) := by
  induction xs with
  | nil => exact .ok false
  | cons x xs ih =>
    intro r h
    rw [List.map_cons, Verdict.any] at h
    have hx := hfg x List.mem_cons_self
    cases e : f x with
    | error c => rw [e] at h; cases h
    | ok a =>
      rw [e] at h
      rw [List.any_cons, hx a e]
      cases a with
      | true => exact Except.ok.inj h
      | false => exact ih (fun y hy => hfg y (List.mem_cons_of_mem _ hy)) r h

theorem Agrees.all {f : α → Verdict} {g : α → Bool} {xs : List α}
    (hfg : ∀ x ∈ xs, Agrees (f x) (g x)) : Agrees (all (xs.map f)) (xs.all g) := by
  induction xs with
  | nil => exact .ok true
  | cons x xs ih =>
    intro r h
    rw [List.map_cons, Verdict.all] at h
    have hx := hfg x List.mem_cons_self
    cases e : f x with
    | error c => rw [e] at h; cases h
    | ok a =>
      rw [e] at h
      rw [List.all_cons, hx a e]
      cases a with
      | true => exact ih (fun y hy => hfg y (List.mem_cons_of_mem _ hy)) r h
      | false => exact Except.ok.inj h

theorem both_ok_ok (p q : Bool) : both (.ok p) (.ok q) = .ok (p && q) := by
  cases p <;> rfl

theorem any_map_eq_ok {f : α → Verdict} {g : α → Bool} {xs : List α}
    (hfg : ∀ x ∈ xs, f x = .ok (g x)) : any (xs.map f) = .ok (xs.any g) := by
  induction xs with
  | nil => rfl
  | cons x xs ih =>
    rw [List.map_cons, Verdict.any, hfg x List.mem_cons_self, List.any_cons,
      ih fun y hy => hfg y (List.mem_cons_of_mem _ hy)]
    cases g x <;> rfl

theorem all_map_eq_ok {f : α → Verdict} {g : α → Bool} {xs : List α}
    (hfg : ∀ x ∈ xs, f x = .ok (g x)) : all (xs.map f) = .ok (xs.all g) := by
  induction xs with
  | nil => rfl
  | cons x xs ih =>
    rw [List.map_cons, Verdict.all, hfg x List.mem_cons_self, List.all_cons,
      ih fun y hy => hfg y (List.mem_cons_of_mem _ hy)]
    cases g x <;> rfl

end Verdict

open Verdict

theorem agrees_settle {a b : Ty} {v : Verdict} {p : Bool} (hv : Agrees v p) :
    Agrees (settle a b v) p := by
  intro r h
  cases v with
  | error e => cases h
  | ok e =>
    have hs : (if (a.hasGeneric || b.hasGeneric || e == (a.name == b.name)) = true then .ok e
      else .error ⟨a.name, b.name, e, a.name == b.name⟩ : Verdict) = .ok r := h
    split at hs
    · exact (hv e rfl).trans (Except.ok.inj hs)
    · cases hs

theorem settle_ok {a b : Ty} {e : Bool} (he : e = true ↔ a.name = b.name) :
    settle a b (.ok e) = .ok e := by
  have hc : e = (a.name == b.name) := by rw [Bool.eq_iff_iff, he, beq_iff_eq]
  show (if (a.hasGeneric || b.hasGeneric || e == (a.name == b.name)) = true then .ok e
    else .error ⟨a.name, b.name, e, a.name == b.name⟩ : Verdict) = .ok e
  rw [if_pos]
  rw [← hc, beq_self_eq_true, Bool.or_true]

/-! ## views of a type -/

namespace Ty

variable {t m : Ty}

theorem members_of_kind_ne_union (ht : t.kind ≠ .union) : t.members = [t] := by
  cases t with
  | union ms => exact absurd rfl ht
  | primitive _ | array _ _ | cls _ | iface _ | generic _ _ => rfl

theorem sizeOf_le_of_mem_members (hm : m ∈ t.members) : sizeOf m ≤ sizeOf t := by
  cases t with
  | union ms =>
    have := List.sizeOf_lt_of_mem (show m ∈ ms from hm)
    rw [Ty.union.sizeOf_spec]
    omega
  | primitive _ | array _ _ | cls _ | iface _ | generic _ _ =>
    exact Nat.le_of_eq (congrArg sizeOf (List.mem_singleton.mp hm))

theorem hasGeneric_of_mem_members (ht : t.hasGeneric = false) (hm : m ∈ t.members) :
    m.hasGeneric = false := by
  cases t with
  | union ms =>
    rw [hasGeneric, anyHasGeneric_eq, List.any_eq_false] at ht
    exact Bool.eq_false_iff.mpr (ht m hm)
  | primitive _ | array _ _ | cls _ | iface _ | generic _ _ =>
    rw [List.mem_singleton.mp hm]
    exact ht

theorem isMixed_iff : t.isMixed = true ↔ t = mixed := by
  cases t with
  | primitive p => cases p <;> decide
  | array _ _ | cls _ | iface _ | union _ | generic _ _ =>
    exact ⟨fun e => (by cases e), fun e => (by cases e)⟩

theorem objectName?_of_isObject (ht : t.isObject = true) : ∃ n, t.objectName? = some n := by
  cases t with
  | cls n | iface n => exact ⟨n, rfl⟩
  | primitive _ | array _ _ | union _ | generic _ _ => cases ht

theorem isObject_of_objectName? {n : String} (ht : t.objectName? = some n) : t.isObject = true := by
  cases t with
  | cls _ | iface _ => rfl
  | primitive _ | array _ _ | union _ | generic _ _ => cases ht

end Ty

/-! ## the relation -/

def fits (h : Hierarchy) : Ty → Ty → Bool
  | .primitive p, c => p.covers h c
  | .array k i, .array k' i' => (fits h i i' && fits h i' i) && (fits h k k' && fits h k' k)
  | .cls n, .cls m => h.instanceOf m n
  | .iface n, .iface m => h.instanceOf m n
  | .iface n, .cls m => h.implements m n
  | .union ts, .union cs => (cs.map fun c => (ts.map fun t => fits h t c).any id).all id
  | .union ts, c => (ts.map fun t => fits h t c).any id
  | _, _ => false
termination_by t c => sizeOf t + sizeOf c
decreasing_by
  all_goals simp only [Ty.array.sizeOf_spec, Ty.union.sizeOf_spec]
  all_goals try have := List.sizeOf_lt_of_mem ‹_ ∈ ts›
  all_goals try have := List.sizeOf_lt_of_mem ‹_ ∈ cs›
  all_goals omega

theorem fits_union_union (h : Hierarchy) (ts cs : List Ty) :
    fits h (.union ts) (.union cs) = cs.all fun c => ts.any fun t => fits h t c := by
  rw [fits, List.all_map]
  congr 1
  funext c
  exact List.any_map

theorem fits_union_left (h : Hierarchy) (ts : List Ty) {c : Ty} (hc : ∀ cs, c ≠ .union cs) :
    fits h (.union ts) c = ts.any fun t => fits h t c := by
  rw [fits]
  · exact List.any_map
  · exact hc

/-- the members of a union and of any other type are asked for in the same way -/
theorem fits_union_iff {h : Hierarchy} {ts : List Ty} {c : Ty} :
    fits h (.union ts) c = true ↔ ∀ m ∈ c.members, ∃ t ∈ ts, fits h t m = true := by
  cases c with
  | union cs => simp [fits_union_union, Ty.members]
  | primitive _ | array _ _ | cls _ | iface _ | generic _ _ =>
    rw [fits_union_left h ts (by intro cs e; cases e)]
    simp [Ty.members]

inductive FitsBy (h : Hierarchy) : Ty → Ty → Prop
  | same (p : Primitive) : FitsBy h (.primitive p) (.primitive p)
  | mixed (c : Ty) : FitsBy h (.primitive .mixed) c
  | object {c : Ty} (hc : ∀ m ∈ c.members, m.isObject = true) : FitsBy h (.primitive .object) c
  | callable {c : Ty} {n : String} (hc : c.objectName? = some n) (hn : h.isCallable n = true) :
    FitsBy h (.primitive .callable) c
  | array {k i k' i' : Ty} (hi : fits h i i' = true) (hi' : fits h i' i = true)
    (hk : fits h k k' = true) (hk' : fits h k' k = true) : FitsBy h (.array k i) (.array k' i')
  | cls {n m : String} (hn : h.instanceOf m n = true) : FitsBy h (.cls n) (.cls m)
  | iface {n m : String} (hn : h.instanceOf m n = true) : FitsBy h (.iface n) (.iface m)
  | implements {n m : String} (hn : h.implements m n = true) : FitsBy h (.iface n) (.cls m)
  | union {ts : List Ty} {c : Ty} (hc : ∀ m ∈ c.members, ∃ t ∈ ts, fits h t m = true) :
    FitsBy h (.union ts) c

theorem covers_iff {h : Hierarchy} {p : Primitive} {c : Ty} :
    p.covers h c = true ↔ FitsBy h (.primitive p) c := by
  unfold Primitive.covers
  rw [Bool.or_eq_true, beq_iff_eq]
  constructor
  · rintro (hp | hp)
    · cases c with
      | primitive q => cases hp; exact .same p
      | array _ _ | cls _ | iface _ | union _ | generic _ _ => cases hp
    · cases p with
      | mixed => exact .mixed c
      | object => exact .object (List.all_eq_true.mp hp)
      | callable =>
        obtain ⟨n, hc, hn⟩ := (Option.any_eq_true _ _).mp hp
        exact .callable hc hn
      | integer | float | string | boolean | resource | null => cases hp
  · rintro (_ | _ | hc | ⟨hc, hn⟩)
    · exact Or.inl rfl
    · exact Or.inr rfl
    · exact Or.inr (List.all_eq_true.mpr hc)
    · exact Or.inr ((Option.any_eq_true _ _).mpr ⟨_, hc, hn⟩)

theorem fits_iff {h : Hierarchy} {t c : Ty} : fits h t c = true ↔ FitsBy h t c := by
  constructor
  · intro hf
    cases t with
    | primitive p => rw [fits] at hf; exact covers_iff.mp hf
    | union ts => exact .union (fits_union_iff.mp hf)
    | array k i =>
      cases c with
      | array k' i' =>
        rw [fits, Bool.and_eq_true, Bool.and_eq_true, Bool.and_eq_true] at hf
        exact .array hf.1.1 hf.1.2 hf.2.1 hf.2.2
      | primitive _ | cls _ | iface _ | union _ | generic _ _ => simp [fits] at hf
    | cls n =>
      cases c with
      | cls m => rw [fits] at hf; exact .cls hf
      | primitive _ | array _ _ | iface _ | union _ | generic _ _ => simp [fits] at hf
    | iface n =>
      cases c with
      | iface m => rw [fits] at hf; exact .iface hf
      | cls m => rw [fits] at hf; exact .implements hf
      | primitive _ | array _ _ | union _ | generic _ _ => simp [fits] at hf
    | generic n d => simp [fits] at hf
  · intro hf
    cases hf with
    | same p => rw [fits]; exact covers_iff.mpr (.same p)
    | mixed c => rw [fits]; exact covers_iff.mpr (.mixed c)
    | object hc => rw [fits]; exact covers_iff.mpr (.object hc)
    | callable hc hn => rw [fits]; exact covers_iff.mpr (.callable hc hn)
    | array hi hi' hk hk' => rw [fits, hi, hi', hk, hk']; rfl
    | cls hn => rw [fits]; exact hn
    | iface hn => rw [fits]; exact hn
    | implements hn => rw [fits]; exact hn
    | union hc => exact fits_union_iff.mpr hc

theorem assignable_agrees (h : Hierarchy) (t c : Ty) :
    Agrees (assignable h t c) (fits h t c) := by
  fun_induction assignable h t c with
  | case1 p c =>
    rw [fits]
    exact .ok _
  | case2 k i k' i' ih₁ ih₂ ih₃ ih₄ =>
    rw [fits]
    exact (agrees_settle (ih₁.both ih₂)).both (agrees_settle (ih₃.both ih₄))
  | case3 n m => rw [fits]; exact .ok _
  | case4 n m => rw [fits]; exact .ok _
  | case5 n m => rw [fits]; exact .ok _
  | case6 ts cs ih =>
    rw [fits_union_union]
    exact .all fun c hc => .any fun t ht => ih c hc t ht
  | case7 ts c hc ih =>
    rw [fits_union_left h ts hc]
    exact .any ih
  | case8 t c h₁ h₂ h₃ h₄ h₅ h₆ h₇ =>
    rw [fits]
    · exact .ok _
    all_goals assumption

end TypeHint
