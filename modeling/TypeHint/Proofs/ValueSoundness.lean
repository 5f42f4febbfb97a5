import TypeHint.Proofs.Ancestors
import TypeHint.Proofs.Fits
import TypeHint.Value.Check

/-!
# Assignable types have fewer values

If a candidate type may be used where a target type is expected, every value of the candidate is a
value of the target.  The two relations are computed apart: `assignable` compares types and asks
the hierarchy for names, `accepts` looks into the value.

* `accepts_iff_members`   a value belongs to a type if it belongs to one of its members
* `accepts_of_fits`       values of a type that fits
-/

namespace TypeHint

variable {h : Hierarchy} {t c : Ty} {v : Value} {n m : String}

theorem accepts_union_iff {ms : List Ty} :
    accepts h (.union ms) v = true ↔ ∃ m ∈ ms, accepts h m v = true := by
  rw [accepts, someAccepts_eq, List.any_eq_true]

theorem accepts_array_iff {k i : Ty} : accepts h (.array k i) v = true ↔
    ∃ entries, v = .array entries ∧
      ∀ e ∈ entries, accepts h i e.2 = true ∧ accepts h k e.1.toValue = true := by
  cases v with
  | array entries => simp [accepts]
  | null | bool _ | int _ | float _ | text _ | object _ | resource _ | closure => simp [accepts]

theorem accepts_iff_members :
    accepts h t v = true ↔ ∃ m ∈ t.members, accepts h m v = true := by
  cases t with
  | union ms => exact accepts_union_iff
  | primitive _ | array _ _ | cls _ | iface _ | generic _ _ => simp [Ty.members]

theorem accepts_of_objectName (hc : c.objectName? = some n) :
    accepts h c v = isInstance h n v := by
  cases c with
  | cls m | iface m => cases hc; rw [accepts]
  | primitive _ | array _ _ | union _ | generic _ _ => cases hc

/-! ## instances -/

theorem isInstance_of_instanceOf (hl : h.Lawful) (hv : isInstance h m v = true)
    (hmn : h.instanceOf m n = true) : isInstance h n v = true := by
  cases v with
  | object c => exact hl.instanceOf_trans hv hmn
  | closure => exact hl.instanceOf_trans hv hmn
  | null | bool _ | int _ | float _ | text _ | array _ | resource _ => cases hv

theorem admits_object_of_isInstance (hv : isInstance h n v = true) :
    Primitive.admits h .object v = true := by
  cases v with
  | object c | closure => rfl
  | null | bool _ | int _ | float _ | text _ | array _ | resource _ => cases hv

theorem admits_callable_of_isInstance (hl : h.Lawful) (hn : h.isCallable n = true)
    (hv : isInstance h n v = true) : Primitive.admits h .callable v = true := by
  cases v with
  | object c => exact hl.isCallable_of_instanceOf hv hn
  | closure => rfl
  | null | bool _ | int _ | float _ | text _ | array _ | resource _ => cases hv

/-! ## values of a type that fits -/

theorem admits_of_covers (hl : h.Lawful) {p : Primitive} (hp : p.covers h c = true)
    (hv : accepts h c v = true) : p.admits h v = true := by
  cases covers_iff.mp hp with
  | same p => exact hv
  | mixed c => rfl
  | object hc =>
    obtain ⟨m, hm, hv⟩ := accepts_iff_members.mp hv
    obtain ⟨n, hn⟩ := Ty.objectName?_of_isObject (hc m hm)
    rw [accepts_of_objectName hn] at hv
    exact admits_object_of_isInstance hv
  | callable hc hn =>
    rw [accepts_of_objectName hc] at hv
    exact admits_callable_of_isInstance hl hn hv

theorem accepts_of_fits (hl : h.Lawful) (t c : Ty) : ∀ v, fits h t c = true →
    accepts h c v = true → accepts h t v = true := by
  fun_induction fits h t c with
  | case1 p c =>
    intro v hf hv
    exact admits_of_covers hl hf hv
  | case2 k i k' i' ihi _ ihk _ =>
    intro v hf hv
    simp only [Bool.and_eq_true] at hf
    obtain ⟨entries, rfl, hall⟩ := accepts_array_iff.mp hv
    refine accepts_array_iff.mpr ⟨entries, rfl, fun e he => ?_⟩
    exact ⟨ihi e.2 hf.1.1 (hall e he).1, ihk e.1.toValue hf.2.1 (hall e he).2⟩
  | case3 n m =>
    intro v hf hv
    exact isInstance_of_instanceOf hl hv hf
  | case4 n m =>
    intro v hf hv
    exact isInstance_of_instanceOf hl hv hf
  | case5 n m =>
    intro v hf hv
    exact isInstance_of_instanceOf hl hv (hl.instanceOf_of_implements hf)
  | case6 ts cs ih =>
    intro v hf hv
    have hf : fits h (.union ts) (.union cs) = true := by rw [fits]; exact hf
    obtain ⟨c, hc, hv⟩ := accepts_union_iff.mp hv
    obtain ⟨t, ht, htc⟩ := fits_union_iff.mp hf c hc
    exact accepts_union_iff.mpr ⟨t, ht, ih c hc t ht v htc hv⟩
  | case7 ts c _ ih =>
    intro v hf hv
    rw [List.any_map, List.any_eq_true] at hf
    obtain ⟨t, ht, htc⟩ := hf
    exact accepts_union_iff.mpr ⟨t, ht, ih t ht v htc hv⟩
  | case8 => intro v hf; cases hf

/-- whatever the table holds, dangling names and cycles included: if `candidate` may be used where
`target` is expected, its values are values of `target` -/
theorem accepts_of_assignable (t : Table) (target candidate : Ty) (v : Value)
    (ha : assignable t.hierarchy target candidate = .ok true)
    (hv : accepts t.hierarchy candidate v = true) : accepts t.hierarchy target v = true :=
  accepts_of_fits t.lawful target candidate v (assignable_agrees _ _ _ _ ha) hv

/-- an object of a class that inherits the call method, through a union -/
theorem accepts_of_assignable_inherited_call :
    assignable Table.handlers.hierarchy (.union [.primitive .callable, .null])
        (.union [.iface "Handler", .null]) = .ok true ∧
      accepts Table.handlers.hierarchy (.union [.iface "Handler", .null]) (.object "Leaf") = true ∧
      accepts Table.handlers.hierarchy (.union [.primitive .callable, .null]) (.object "Leaf") =
        true := by
  have ha : assignable Table.handlers.hierarchy (.union [.primitive .callable, .null])
      (.union [.iface "Handler", .null]) = .ok true := by
    simp only [assignable, Ty.null, List.map]
    decide
  have hv : accepts Table.handlers.hierarchy (.union [.iface "Handler", .null]) (.object "Leaf") =
      true := by decide
  exact ⟨ha, hv, accepts_of_assignable _ _ _ _ ha hv⟩

end TypeHint
