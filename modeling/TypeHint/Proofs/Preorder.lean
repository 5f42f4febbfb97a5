import Mathlib.Data.List.Pairwise
import TypeHint.Proofs.Ancestors
import TypeHint.Proofs.Canonical

/-!
# Assignability is a preorder

On well-formed types `fits` is transitive (`fits_trans`).  It is reflexive exactly on the types
without generic parameters (`fits_self_iff`): a generic parameter accepts nothing, and in a
canonical union nothing else accepts the member in which it occurs.

A chain is followed member by member: what fits a type fits through one of its members
(`exists_member_fits`), and a type that accepts a union accepts each member (`fits_member`).
-/

namespace TypeHint

open TypeHint.Union

variable {h : Hierarchy} {a b c t m : Ty} {n : String}

/-! ## members -/

theorem fits_member (hc : WellFormed h c) (hm : m ∈ c.members) (hf : fits h b c = true) :
    fits h b m = true := by
  have hmm := Ty.members_of_kind_ne_union (hc.of_mem_members hm).2
  rw [fits_iff] at hf ⊢
  cases hf with
  | same p => rw [List.mem_singleton.mp hm]; exact .same p
  | mixed c => exact .mixed m
  | object hobj =>
    refine .object fun x hx => ?_
    rw [hmm] at hx
    rw [List.mem_singleton.mp hx]
    exact hobj m hm
  | callable hn hcall =>
    cases c with
    | cls _ | iface _ => rw [List.mem_singleton.mp hm]; exact .callable hn hcall
    | primitive _ | array _ _ | union _ | generic _ _ => cases hn
  | array hi hi' hk hk' => rw [List.mem_singleton.mp hm]; exact .array hi hi' hk hk'
  | cls hn => rw [List.mem_singleton.mp hm]; exact .cls hn
  | iface hn => rw [List.mem_singleton.mp hm]; exact .iface hn
  | implements hn => rw [List.mem_singleton.mp hm]; exact .implements hn
  | union hall =>
    refine .union fun x hx => ?_
    rw [hmm] at hx
    rw [List.mem_singleton.mp hx]
    exact hall m hm

theorem exists_member_fits (hm : m.kind ≠ .union) (hf : fits h b m = true) :
    ∃ x ∈ b.members, fits h x m = true := by
  cases b with
  | union bs =>
    refine fits_union_iff.mp hf m ?_
    rw [Ty.members_of_kind_ne_union hm]
    exact List.mem_cons_self
  | primitive _ | array _ _ | cls _ | iface _ | generic _ _ =>
    exact ⟨_, List.mem_cons_self, hf⟩

/-- every member of `c` is accepted by a member of `b` -/
def Spans (h : Hierarchy) (b c : Ty) : Prop :=
  ∀ m ∈ c.members, ∃ x ∈ b.members, fits h x m = true

theorem spans_of_fits (hc : WellFormed h c) (hf : fits h b c = true) : Spans h b c :=
  fun _ hm => exists_member_fits (hc.of_mem_members hm).2 (fits_member hc hm hf)

/-! ## objects -/

theorem exists_instanceOf_of_fits (hl : h.Lawful) (hb : b.objectName? = some n)
    (hf : fits h b c = true) : ∃ l, c.objectName? = some l ∧ h.instanceOf l n = true := by
  cases fits_iff.mp hf with
  | @cls n' l hn => cases hb; exact ⟨l, rfl, hn⟩
  | @iface n' l hn => cases hb; exact ⟨l, rfl, hn⟩
  | @implements n' l hn => cases hb; exact ⟨l, rfl, hl.instanceOf_of_implements hn⟩
  | same | mixed | object | callable | array | union => cases hb

theorem isObject_of_fits (hl : h.Lawful) (hb : b.isObject = true) (hf : fits h b c = true) :
    c.isObject = true := by
  obtain ⟨n, hn⟩ := Ty.objectName?_of_isObject hb
  obtain ⟨l, hc, -⟩ := exists_instanceOf_of_fits hl hn hf
  exact Ty.isObject_of_objectName? hc

theorem Hierarchy.Lawful.implements_of_instanceOf (hl : h.Lawful) {l x n : String}
    (hcl : h.isClass l = true) (hin : h.isInterface n = true) (hlx : h.instanceOf l x = true)
    (hxn : h.instanceOf x n = true) : h.implements l n = true := by
  have hne : l ≠ n := by
    rintro rfl
    rw [hl.disjoint hcl] at hin
    cases hin
  rcases Hierarchy.instanceOf_iff.mp (hl.instanceOf_trans hlx hxn) with e | hb
  · exact absurd e hne
  · exact hl.implements_iff.mpr ⟨hcl, hin, hb⟩

/-! ## chains -/

/-- transitivity for types whose sizes add up to less than `k` -/
theorem fits_trans_of_size (hl : h.Lawful) (k : Nat) : ∀ a b c : Ty,
    sizeOf a + sizeOf b + sizeOf c < k → WellFormed h a → WellFormed h b → WellFormed h c →
    fits h a b = true → fits h b c = true → fits h a c = true := by
  induction k with
  | zero => intro a b c hk; omega
  | succ k ih =>
    intro a b c hk ha hb hc hab hbc
    cases fits_iff.mp hab with
    | same p => exact hbc
    | mixed b => exact fits_iff.mpr (.mixed c)
    | object hobj =>
      refine fits_iff.mpr (.object fun m hm => ?_)
      obtain ⟨x, hx, hxm⟩ :=
        exists_member_fits (hc.of_mem_members hm).2 (fits_member hc hm hbc)
      exact isObject_of_fits hl (hobj x hx) hxm
    | callable hn hcall =>
      obtain ⟨l, hcl, hln⟩ := exists_instanceOf_of_fits hl hn hbc
      exact fits_iff.mpr (.callable hcl (hl.isCallable_of_instanceOf hln hcall))
    | array hi hi' hk' hk'' =>
      cases fits_iff.mp hbc with
      | array gi gi' gk gk' =>
        cases ha with | array hak hai =>
        cases hb with | array hbk hbi =>
        cases hc with | array hck hci =>
        simp only [Ty.array.sizeOf_spec] at hk
        refine fits_iff.mpr (.array ?_ ?_ ?_ ?_)
        · exact ih _ _ _ (by omega) hai hbi hci hi gi
        · exact ih _ _ _ (by omega) hci hbi hai gi' hi'
        · exact ih _ _ _ (by omega) hak hbk hck hk' gk
        · exact ih _ _ _ (by omega) hck hbk hak gk' hk''
    | cls hn =>
      cases fits_iff.mp hbc with
      | cls hm => exact fits_iff.mpr (.cls (hl.instanceOf_trans hm hn))
    | iface hn =>
      cases fits_iff.mp hbc with
      | iface hm => exact fits_iff.mpr (.iface (hl.instanceOf_trans hm hn))
      | implements hm =>
        cases ha with | iface hin =>
        have hcl := (hl.implements_iff.mp hm).1
        exact fits_iff.mpr (.implements
          (hl.implements_of_instanceOf hcl hin (hl.instanceOf_of_implements hm) hn))
    | implements hn =>
      cases fits_iff.mp hbc with
      | cls hm =>
        cases ha with | iface hin =>
        cases hc with | cls hcl =>
        exact fits_iff.mpr (.implements
          (hl.implements_of_instanceOf hcl hin hm (hl.instanceOf_of_implements hn)))
    | @union ts _ hall =>
      -- a member of `c` fits a member of `b`, and that one fits a member of `a`
      refine fits_iff.mpr (.union fun m hm => ?_)
      have hmc := hc.of_mem_members hm
      obtain ⟨x, hx, hxm⟩ := exists_member_fits hmc.2 (fits_member hc hm hbc)
      obtain ⟨u, hu, hux⟩ := hall x hx
      cases ha with | union hms _ =>
      have h₁ := List.sizeOf_lt_of_mem hu
      have h₂ := Ty.sizeOf_le_of_mem_members hx
      have h₃ := Ty.sizeOf_le_of_mem_members hm
      simp only [Ty.union.sizeOf_spec] at hk
      exact ⟨u, hu, ih u x m (by omega) (hms u hu) (hb.of_mem_members hx).1 hmc.1 hux hxm⟩

theorem fits_trans (hl : h.Lawful) (ha : WellFormed h a) (hb : WellFormed h b)
    (hc : WellFormed h c) (hab : fits h a b = true) (hbc : fits h b c = true) :
    fits h a c = true :=
  fits_trans_of_size hl _ a b c (Nat.lt_succ_self _) ha hb hc hab hbc

/-! ## a type and itself -/

instance : Std.Symm (Apart h) := ⟨fun _ _ hab => ⟨hab.2, hab.1⟩⟩

theorem Union.Canonical.apart_of_ne {ms : List Ty} (hc : Canonical h ms) (ha : a ∈ ms)
    (hb : b ∈ ms) (hne : a ≠ b) : Apart h a b :=
  hc.apart.forall ha hb hne

theorem Union.Canonical.eq_of_fits {ms : List Ty} (hc : Canonical h ms) (ha : a ∈ ms)
    (hb : b ∈ ms) (hab : fits h a b = true) : a = b := by
  by_contra hne
  have hno := assignable_agrees h a b false (hc.apart_of_ne ha hb hne).1
  rw [hab] at hno
  cases hno

theorem fits_self_iff (ht : WellFormed h t) : fits h t t = true ↔ t.hasGeneric = false := by
  induction ht with
  | primitive p => exact iff_of_true (fits_iff.mpr (.same p)) rfl
  | array hk hi ihk ihi =>
    rw [fits, Ty.hasGeneric, Bool.and_self, Bool.and_self, Bool.and_eq_true, Bool.or_eq_false_iff,
      ihk, ihi, and_comm]
  | cls hn =>
    exact iff_of_true (fits_iff.mpr (.cls (Hierarchy.instanceOf_iff.mpr (Or.inl rfl)))) rfl
  | iface hn =>
    exact iff_of_true (fits_iff.mpr (.iface (Hierarchy.instanceOf_iff.mpr (Or.inl rfl)))) rfl
  | @union ms hms hc ih =>
    rw [Ty.hasGeneric, Ty.anyHasGeneric_eq, List.any_eq_false, fits_union_iff]
    constructor
    · intro hall m hm
      obtain ⟨x, hx, hxm⟩ := hall m hm
      rw [hc.eq_of_fits hx hm hxm] at hxm
      rw [(ih m hm).mp hxm]
      exact Bool.false_ne_true
    · intro hno m hm
      exact ⟨m, hm, (ih m hm).mpr (Bool.eq_false_iff.mpr (hno m hm))⟩
  | generic hd ihd => simp [fits, Ty.hasGeneric]

/-- where no generic parameter occurs, a type accepts itself without a contradiction -/
theorem assignable_self (ht : WellFormed h t) (hg : t.hasGeneric = false) :
    assignable h t t = .ok true := by
  induction ht with
  | primitive p =>
    rw [assignable]
    exact congrArg _ (covers_iff.mpr (.same p))
  | @array k i hk hi ihk ihi =>
    rw [Ty.hasGeneric, Bool.or_eq_false_iff] at hg
    rw [assignable_array_array, equal, equal, ihk hg.1, ihi hg.2]
    show Verdict.both (settle i i (.ok true)) (settle k k (.ok true)) = .ok true
    rw [settle_ok (iff_of_true rfl rfl), settle_ok (iff_of_true rfl rfl)]
    rfl
  | cls hn => simp [assignable]; rfl
  | iface hn => simp [assignable]; rfl
  | @union ms hms hc ih =>
    rw [Ty.hasGeneric, Ty.anyHasGeneric_eq, List.any_eq_false] at hg
    rw [assignable]
    have hmem : ∀ c ∈ ms, Verdict.any (ms.map fun t => assignable h t c) = .ok true := by
      intro c hc'
      have hone : ∀ t ∈ ms, assignable h t c = .ok (decide (t = c)) := by
        intro t ht
        by_cases e : t = c
        · rw [e, ih c hc' (Bool.eq_false_iff.mpr (hg c hc'))]
          simp
        · rw [(hc.apart_of_ne ht hc' e).1]
          simp [e]
      rw [Verdict.any_map_eq_ok hone]
      exact congrArg _ (List.any_eq_true.mpr ⟨c, hc', by simp⟩)
    rw [Verdict.all_map_eq_ok hmem]
    simp
  | generic hd ihd => cases hg

/-! ## the preorder -/

/-- **Assignability is a preorder.**  In every table the types that can be built are well-formed.
On these, a chain of two accepted steps is never refused, and with the comparison of names left
out it is accepted; and a type accepts itself exactly if no generic parameter occurs in it. -/
theorem assignable_preorder (t : Table) :
    (∀ a, Built t.hierarchy a → WellFormed t.hierarchy a) ∧
    (∀ a b c, WellFormed t.hierarchy a → WellFormed t.hierarchy b → WellFormed t.hierarchy c →
      assignable t.hierarchy a b = .ok true → assignable t.hierarchy b c = .ok true →
      assignable t.hierarchy a c ≠ .ok false ∧ fits t.hierarchy a c = true) ∧
    ∀ a, WellFormed t.hierarchy a →
      (assignable t.hierarchy a a = .ok true ↔ a.hasGeneric = false) := by
  refine ⟨fun a ha => ha.wellFormed, ?_, fun a ha => ⟨fun haa => ?_, assignable_self ha⟩⟩
  · intro a b c ha hb hc hab hbc
    have hf : fits t.hierarchy a c = true := fits_trans t.lawful ha hb hc
      (assignable_agrees _ _ _ _ hab) (assignable_agrees _ _ _ _ hbc)
    refine ⟨fun hno => ?_, hf⟩
    rw [assignable_agrees _ _ _ _ hno] at hf
    cases hf
  · exact (fits_self_iff ha).mp (assignable_agrees _ _ _ _ haa)

/-- a chain through a union of an interface, a union of a class and a class, and a union in which a
generic parameter occurs -/
theorem assignable_preorder_of_handlers :
    assignable Table.handlers.hierarchy (.union [.iface "Handler", .null]) (.cls "Leaf") ≠
        .ok false ∧
      assignable Table.handlers.hierarchy (.union [.generic "T" (.cls "Leaf"), .null])
        (.union [.generic "T" (.cls "Leaf"), .null]) ≠ .ok true := by
  obtain ⟨hwf, htrans, hself⟩ := assignable_preorder Table.handlers
  have ha : Built Table.handlers.hierarchy (.union [.iface "Handler", .null]) :=
    .ofText (show (Ty.ofText _ none "null|Handler").result = _ by decide +kernel)
  have hb : Built Table.handlers.hierarchy (.union [.cls "Base", .null]) :=
    .ofText (show (Ty.ofText _ none "Base|null|Leaf").result = _ by decide +kernel)
  have hc : Built Table.handlers.hierarchy (.cls "Leaf") :=
    .classOfText (show (Ty.classOfText _ "Leaf").result = _ by decide +kernel)
  have hg : Built Table.handlers.hierarchy (.union [.generic "T" (.cls "Leaf"), .null]) :=
    .orNull (.generic hc)
      (show (Ty.orNull _ (.generic "T" (.cls "Leaf"))).result = _ by decide +kernel)
  have hab : assignable Table.handlers.hierarchy (.union [.iface "Handler", .null])
      (.union [.cls "Base", .null]) = .ok true := by decide +kernel
  have hbc : assignable Table.handlers.hierarchy (.union [.cls "Base", .null]) (.cls "Leaf") =
      .ok true := by decide +kernel
  refine ⟨(htrans _ _ _ (hwf _ ha) (hwf _ hb) (hwf _ hc) hab hbc).1, ?_⟩
  exact fun hgg => absurd ((hself _ (hwf _ hg)).mp hgg) (by decide)

end TypeHint
