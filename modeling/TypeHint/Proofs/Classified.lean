import TypeHint.Proofs.Grammar
import TypeHint.Proofs.Overriding
import TypeHint.Proofs.ValueSoundness

/-!
# Values and the types that classify them

A type accepts a value exactly if it accepts the type of the value, apart from arrays and closures,
whose types say less than they do.  The two answers are found in different ways: that of a value by
`instanceOf`, that of a type by `isBelow` or by `implements`, as its kind and that of the target ask
for.  They agree because in a checked table no interface is below a class.

* `Hierarchy.Layered`         no interface is below a class; every checked table has this
* `classify_cases`            a scalar is classified by a primitive type, an object by its name
* `assignable_of_classify`    the answer for a type is the answer for the value
* `accepts_classified`        both directions, over every table
-/

namespace TypeHint

/-! ## classes over interfaces -/

/-- no interface is below a class -/
def Hierarchy.Layered (h : Hierarchy) : Prop :=
  ∀ a b, h.isInterface a = true → h.isClass b = true → h.isBelow a b = false

theorem Table.layered_of_check {t : Table} (hcheck : t.check = .ok ()) : t.hierarchy.Layered := by
  intro a b ha hb
  apply Bool.eq_false_iff.mpr
  intro hbelow
  obtain ⟨k, hk⟩ := exists_climb (reaches_iff_edges.mp (isBelow_iff.mp hbelow).2).to_reflTransGen
  have hno := not_isInterface_of_isClass (isClass_of_climb hcheck hk hb)
  exact Bool.false_ne_true (hno.symm.trans ha)

section

variable {h : Hierarchy} {t c : Ty} {v : Value} {m n : String}

theorem Hierarchy.Lawful.ne_of_kinds (hl : h.Lawful) (hm : h.isClass m = true)
    (hn : h.isInterface n = true) : m ≠ n := by
  rintro rfl
  exact Bool.false_ne_true ((hl.disjoint hm).symm.trans hn)

theorem Hierarchy.Layered.instanceOf_eq_false (hk : h.Layered) (hl : h.Lawful)
    (hn : h.isInterface n = true) (hm : h.isClass m = true) : h.instanceOf n m = false := by
  have hne : (n == m) = false := beq_false_of_ne (hl.ne_of_kinds hm hn).symm
  rw [instanceOf, hne, hk n m hn hm]
  rfl

/-- a class is an instance of an interface only by implementing it -/
theorem Hierarchy.Lawful.implements_eq_instanceOf (hl : h.Lawful) (hn : h.isClass n = true)
    (hm : h.isInterface m = true) : h.implements n m = h.instanceOf n m := by
  rw [Bool.eq_iff_iff, hl.implements_iff, instanceOf_iff]
  constructor
  · rintro ⟨-, -, hbelow⟩
    exact Or.inr hbelow
  · rintro (e | hbelow)
    · exact absurd e (hl.ne_of_kinds hn hm)
    · exact ⟨hn, hm, hbelow⟩

/-! ## the type of a value -/

/-- a value that is neither an array nor a closure is a scalar, which is an instance of nothing, or
an object -/
theorem classify_cases (hc : classify h v = .ok c) (harray : ∀ entries, v ≠ .array entries)
    (hclosure : v ≠ .closure) :
    (∃ p, c = .primitive p ∧ ∀ n, isInstance h n v = false) ∨
      ∃ n, v = .object n ∧ Refers h n c := by
  cases v with
  | object n => exact Or.inr ⟨n, rfl, lookUp_eq_ok_iff.mp hc⟩
  | null | bool _ | int _ | float _ | text _ | resource _ =>
    cases hc
    exact Or.inl ⟨_, rfl, fun _ => rfl⟩
  | array entries => exact absurd rfl (harray entries)
  | closure => exact absurd rfl hclosure

theorem covers_eq_admits (hc : classify h v = .ok c) (harray : ∀ entries, v ≠ .array entries)
    (hclosure : v ≠ .closure) (p : Primitive) : p.covers h c = p.admits h v := by
  cases v with
  | object n =>
    cases lookUp_eq_ok_iff.mp hc with
    | iface _ | cls _ _ => cases p <;> rfl
  | null | bool _ | int _ | float _ | text _ | resource _ =>
    cases hc
    cases p <;> rfl
  | array entries => exact absurd rfl (harray entries)
  | closure => exact absurd rfl hclosure

theorem accepts_array_eq_false (harray : ∀ entries, v ≠ .array entries) (k i : Ty) :
    accepts h (.array k i) v = false := by
  apply Bool.eq_false_iff.mpr
  intro hv
  obtain ⟨entries, e, -⟩ := accepts_array_iff.mp hv
  exact harray entries e

/-- the answer for the type of a value is the answer for the value, and never a contradiction -/
theorem assignable_of_classify (hl : h.Lawful) (hk : h.Layered) (ht : WellFormed h t)
    (hc : classify h v = .ok c) (harray : ∀ entries, v ≠ .array entries)
    (hclosure : v ≠ .closure) : assignable h t c = .ok (accepts h t v) := by
  have hcases := classify_cases hc harray hclosure
  induction ht with
  | primitive p =>
    rw [assignable, accepts, covers_eq_admits hc harray hclosure]
    rfl
  | array _ _ _ _ =>
    rw [accepts_array_eq_false harray]
    obtain ⟨p, rfl, -⟩ | ⟨n, -, href⟩ := hcases
    · simp only [assignable]
      rfl
    · cases href with
      | iface _ | cls _ _ =>
        simp only [assignable]
        rfl
  | cls hm =>
    obtain ⟨p, rfl, hno⟩ | ⟨n, rfl, href⟩ := hcases
    · simp only [assignable, accepts, hno]
      rfl
    · cases href with
      | iface hn =>
        have hfalse := hk.instanceOf_eq_false hl hn hm
        simp only [assignable, accepts, isInstance, hfalse]
        rfl
      | cls _ hn =>
        simp only [assignable]
        rfl
  | iface hm =>
    obtain ⟨p, rfl, hno⟩ | ⟨n, rfl, href⟩ := hcases
    · simp only [assignable, accepts, hno]
      rfl
    · cases href with
      | iface hn =>
        simp only [assignable]
        rfl
      | cls _ hn =>
        simp only [assignable, hl.implements_eq_instanceOf hn hm]
        rfl
  | @union ms _ _ ih =>
    have hleaf : ∀ cs, c ≠ .union cs := by
      intro cs e
      obtain ⟨p, rfl, -⟩ | ⟨n, -, href⟩ := hcases
      · cases e
      · cases href <;> cases e
    rw [assignable, accepts, someAccepts_eq]
    · exact Verdict.any_map_eq_ok ih
    · exact hleaf
  | generic _ _ =>
    simp only [assignable, accepts]
    rfl

theorem accepts_of_classify (hc : classify h v = .ok c) : accepts h c v = true := by
  cases v with
  | object n =>
    cases lookUp_eq_ok_iff.mp hc with
    | iface _ | cls _ _ =>
      rw [accepts]
      exact Hierarchy.instanceOf_iff.mpr (Or.inl rfl)
  | closure =>
    rw [classify] at hc
    split at hc
    · cases hc
      rw [accepts]
      exact Hierarchy.instanceOf_iff.mpr (Or.inl rfl)
    · cases hc
      rfl
  | array entries =>
    cases hc
    exact accepts_array_iff.mpr ⟨entries, rfl, fun _ _ => ⟨rfl, rfl⟩⟩
  | null | bool _ | int _ | float _ | text _ | resource _ =>
    cases hc
    rfl

end

/-- **Values are accepted as their types are.**  In a checked table, a type that can be built accepts
a value that is neither an array nor a closure exactly if it accepts the type by which the value is
classified, and that answer is never a contradiction.  In every table every value belongs to the type
by which it is classified. -/
theorem accepts_classified (t : Table) :
    (t.check = .ok () → ∀ (target : Ty) (v : Value) (c : Ty), Built t.hierarchy target →
      (∀ entries, v ≠ .array entries) → v ≠ .closure → classify t.hierarchy v = .ok c →
      assignable t.hierarchy target c = .ok (accepts t.hierarchy target v)) ∧
    ∀ (v : Value) (c : Ty), classify t.hierarchy v = .ok c → accepts t.hierarchy c v = true := by
  refine ⟨?_, fun v c => accepts_of_classify⟩
  intro hcheck target v c ht harray hclosure hc
  have hk := Table.layered_of_check hcheck
  exact assignable_of_classify t.lawful hk ht.wellFormed hc harray hclosure

/-- an object two steps below an interface, in a union with a generic parameter, an object that is
named by an interface, which no class accepts, and a closure where its class is not registered -/
theorem accepts_classified_of_handlers :
    let h := Table.handlers.hierarchy
    let handled := Ty.union [.iface "Handler", .generic "T" (.cls "Leaf"), .null]
    let based := Ty.union [.cls "Base", .null]
    (classify h (.object "Leaf") = .ok (.cls "Leaf") ∧ accepts h handled (.object "Leaf") = true ∧
      assignable h handled (.cls "Leaf") = .ok true) ∧
    (classify h (.object "Handler") = .ok (.iface "Handler") ∧
      accepts h based (.object "Handler") = false ∧
      assignable h based (.iface "Handler") = .ok false) ∧
    classify h .closure = .ok (.primitive .callable) ∧
    accepts h (.primitive .callable) .closure = true := by
  intro h handled based
  obtain ⟨hagree, hmember⟩ := accepts_classified Table.handlers
  have hagree := hagree (by decide)
  have hleaf : Built h (.cls "Leaf") :=
    .classOfText (show (Ty.classOfText _ "Leaf").result = _ by decide +kernel)
  have hhandler : Built h (.iface "Handler") :=
    .interfaceOfText (show (Ty.interfaceOfText _ "Handler").result = _ by decide +kernel)
  have hnull : Built h .null := .classify (v := .null) rfl
  have hparts : ∀ t ∈ [Ty.null, .iface "Handler", .generic "T" (.cls "Leaf")], Built h t := by
    simp only [List.forall_mem_cons]
    exact ⟨hnull, hhandler, .generic hleaf, fun t ht => (by cases ht)⟩
  have hhandled : Built h handled :=
    .unite hparts (show (Ty.unite Table.handlers.hierarchy _).result = _ by decide +kernel)
  have hbased : Built h based :=
    .ofText (show (Ty.ofText _ none "Base|null|Leaf").result = _ by decide +kernel)
  have hobject : classify h (.object "Leaf") = .ok (.cls "Leaf") := by decide
  have hiface : classify h (.object "Handler") = .ok (.iface "Handler") := by decide
  have hclosure : classify h .closure = .ok (.primitive .callable) := by decide
  refine ⟨⟨hobject, by decide, ?_⟩, ⟨hiface, by decide, ?_⟩, hclosure, hmember _ _ hclosure⟩
  · exact hagree handled (.object "Leaf") _ hhandled (fun _ => nofun) nofun hobject
  · exact hagree based (.object "Handler") _ hbased (fun _ => nofun) nofun hiface

end TypeHint
