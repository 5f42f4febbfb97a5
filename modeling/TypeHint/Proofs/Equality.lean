import TypeHint.Proofs.Names
import TypeHint.Proofs.Preorder

/-!
# Equality of types

In a checked table with plain names, two types without generic parameters are assignable to each
other only if they are identical (`fits_antisymm`), and they have the same name only then
(`name_injective`).  So the comparison with the names never fails, and every question has an answer.

* `fits_antisymm_of_flat`   two types that are not unions, one step down
* `members_subset`          types whose members accept each other have the same members
* `assignable_eq_fits`      assignability is decided, and the answer is `fits`
* `equal_eq_ok`             equality is decided, and the answer is identity
-/

namespace TypeHint

open TypeHint.Union

/-- what a checked table with plain names provides -/
structure Hierarchy.Ordinary (h : Hierarchy) : Prop where
  lawful : h.Lawful
  acyclic : h.Acyclic
  plain : h.Plain

theorem Table.ordinary {t : Table} (hcheck : t.check = .ok ()) (hplain : t.Plain) :
    t.hierarchy.Ordinary :=
  ⟨t.lawful, Table.acyclic_of_check hcheck, hplain.hierarchy⟩

variable {h : Hierarchy} {a b t m x : Ty}

/-! ## antisymmetry -/

theorem Hierarchy.Acyclic.eq_of_instanceOf (hac : h.Acyclic) {n l : String}
    (hnl : h.instanceOf n l = true) (hln : h.instanceOf l n = true) : n = l := by
  rcases Hierarchy.instanceOf_iff.mp hnl with e | hnl
  · exact e
  · rcases Hierarchy.instanceOf_iff.mp hln with e | hln
    · exact e.symm
    · rw [hac n l hnl] at hln
      cases hln

theorem eq_mixed_of_fits (hu : b.kind ≠ .union) (hf : fits h b .mixed = true) : b = .mixed := by
  cases fits_iff.mp hf with
  | same | mixed => rfl
  | object hobj => cases hobj .mixed List.mem_cons_self
  | callable hn => cases hn
  | union => exact absurd rfl hu

theorem not_fits_primitive (ho : b.isObject = true) (p : Primitive) :
    fits h b (.primitive p) ≠ true := by
  intro hf
  cases fits_iff.mp hf with
  | same | mixed | object | callable | union => cases ho

theorem fits_antisymm_of_flat (hac : h.Acyclic) (hua : a.kind ≠ .union) (hub : b.kind ≠ .union)
    (ha : Concrete h a) (hb : Concrete h b)
    (ih : ∀ x y, sizeOf x < sizeOf a → Concrete h x → Concrete h y → fits h x y = true →
      fits h y x = true → x = y)
    (hab : fits h a b = true) (hba : fits h b a = true) : a = b := by
  cases fits_iff.mp hab with
  | same p => rfl
  | mixed => exact (eq_mixed_of_fits hub hba).symm
  | object hobj =>
    rw [Ty.members_of_kind_ne_union hub] at hobj
    exact absurd hba (not_fits_primitive (hobj b List.mem_cons_self) _)
  | callable hn hcall =>
    exact absurd hba (not_fits_primitive (Ty.isObject_of_objectName? hn) _)
  | @array k i k' i' hi hi' hk hk' =>
    have ek := ih k k' (by rw [Ty.array.sizeOf_spec]; omega) ha.key hb.key hk hk'
    have ei := ih i i' (by rw [Ty.array.sizeOf_spec]; omega) ha.item hb.item hi hi'
    rw [ek, ei]
  | cls hn =>
    cases fits_iff.mp hba with
    | cls hm => rw [hac.eq_of_instanceOf hm hn]
  | iface hn =>
    cases fits_iff.mp hba with
    | iface hm => rw [hac.eq_of_instanceOf hm hn]
  | implements hn => cases fits_iff.mp hba
  | union => exact absurd rfl hua

/-! ## members -/

theorem WellFormed.eq_of_fits (ht : WellFormed h t) (hx : x ∈ t.members) (hm : m ∈ t.members)
    (hf : fits h x m = true) : x = m := by
  by_cases hu : t.kind = .union
  · cases ht with
    | union hms hc => exact hc.eq_of_fits hx hm hf
    | primitive | array | cls | iface | generic => cases hu
  · rw [Ty.members_of_kind_ne_union hu, List.mem_singleton] at hx hm
    rw [hx, hm]

theorem WellFormed.members_sorted (ht : WellFormed h t) :
    t.members.Pairwise fun a b => before b a = false := by
  cases ht with
  | union hms hc => exact hc.sorted
  | primitive | array | cls | iface | generic => exact List.pairwise_singleton _ _

theorem WellFormed.members_nodup (ht : WellFormed h t) : t.members.Nodup := by
  cases ht with
  | union hms hc => exact hc.distinct.imp fun hne e => hne (by rw [e])
  | primitive | array | cls | iface | generic => exact List.pairwise_singleton _ _

/-- types whose members accept each other have the same members: a member of one passes through a
member of the other back to itself -/
theorem members_subset (hl : h.Lawful) (ha : WellFormed h a) (hb : WellFormed h b)
    (hanti : ∀ m ∈ a.members, ∀ x ∈ b.members, fits h m x = true → fits h x m = true → m = x)
    (hab : Spans h a b) (hba : Spans h b a) : a.members ⊆ b.members := by
  intro m hm
  obtain ⟨x, hx, hxm⟩ := hba m hm
  obtain ⟨m', hm', hmx⟩ := hab x hx
  have hmm := fits_trans hl (ha.of_mem_members hm').1 (hb.of_mem_members hx).1
    (ha.of_mem_members hm).1 hmx hxm
  rw [ha.eq_of_fits hm' hm hmm] at hmx
  rw [hanti m hm x hx hmx hxm]
  exact hx

/-- the order of members leaves one list for each set of them -/
theorem members_eq_of_subset (ho : h.Ordinary) (ha : Concrete h a) (hb : Concrete h b)
    (hab : a.members ⊆ b.members) (hba : b.members ⊆ a.members) : a.members = b.members := by
  refine List.Perm.eq_of_pairwise ?_ ha.wellFormed.members_sorted hb.wellFormed.members_sorted
    ((List.perm_ext_iff_of_nodup ha.wellFormed.members_nodup hb.wellFormed.members_nodup).mpr
      fun m => ⟨fun hm => hab hm, fun hm => hba hm⟩)
  intro x y hx hy hxy hyx
  exact name_injective ho.lawful ho.plain (ha.of_mem_members hx) (hb.of_mem_members hy)
    (name_eq_of_before hxy hyx)

theorem fits_antisymm_of_size (ho : h.Ordinary) (n : Nat) : ∀ a b : Ty, sizeOf a < n →
    Concrete h a → Concrete h b → fits h a b = true → fits h b a = true → a = b := by
  induction n with
  | zero => intro a b hn; omega
  | succ n ih =>
    intro a b hn ha hb hab hba
    have hflat : ∀ m ∈ a.members, ∀ x ∈ b.members,
        fits h m x = true → fits h x m = true → m = x := by
      intro m hm x hx
      have hle := Ty.sizeOf_le_of_mem_members hm
      exact fits_antisymm_of_flat ho.acyclic (ha.kind_of_mem_members hm)
        (hb.kind_of_mem_members hx) (ha.of_mem_members hm) (hb.of_mem_members hx)
        fun u v hu => ih u v (by omega)
    have hsab := spans_of_fits hb.wellFormed hab
    have hsba := spans_of_fits ha.wellFormed hba
    have h₁ := members_subset ho.lawful ha.wellFormed hb.wellFormed hflat hsab hsba
    have h₂ := members_subset ho.lawful hb.wellFormed ha.wellFormed
      (fun x hx m hm hxm hmx => (hflat m hm x hx hmx hxm).symm) hsba hsab
    exact ha.wellFormed.eq_of_members hb.wellFormed (members_eq_of_subset ho ha hb h₁ h₂)

theorem fits_antisymm (ho : h.Ordinary) (ha : Concrete h a) (hb : Concrete h b)
    (hab : fits h a b = true) (hba : fits h b a = true) : a = b :=
  fits_antisymm_of_size ho _ a b (Nat.lt_succ_self _) ha hb hab hba

/-! ## every question has an answer -/

theorem mutual_fits_iff (ho : h.Ordinary) (ha : Concrete h a) (hb : Concrete h b) :
    (fits h a b && fits h b a) = true ↔ a = b := by
  rw [Bool.and_eq_true]
  constructor
  · rintro ⟨hab, hba⟩
    exact fits_antisymm ho ha hb hab hba
  · rintro rfl
    have haa := (fits_self_iff ha.wellFormed).mpr ha.noGeneric
    exact ⟨haa, haa⟩

theorem name_eq_iff (ho : h.Ordinary) (ha : Concrete h a) (hb : Concrete h b) :
    a.name = b.name ↔ a = b :=
  ⟨name_injective ho.lawful ho.plain ha hb, congrArg Ty.name⟩

/-- the comparison with the names confirms the answer of `fits` -/
theorem settle_fits (ho : h.Ordinary) (ha : Concrete h a) (hb : Concrete h b) :
    settle a b (Verdict.both (.ok (fits h a b)) (.ok (fits h b a))) =
      .ok (fits h a b && fits h b a) := by
  rw [Verdict.both_ok_ok]
  exact settle_ok ((mutual_fits_iff ho ha hb).trans (name_eq_iff ho ha hb).symm)

theorem settle_of_hasGeneric (hg : (a.hasGeneric || b.hasGeneric) = true) (e : Bool) :
    settle a b (.ok e) = .ok e := by
  show (if (a.hasGeneric || b.hasGeneric || e == (a.name == b.name)) = true then .ok e
    else .error ⟨a.name, b.name, e, a.name == b.name⟩ : Verdict) = .ok e
  rw [hg, Bool.true_or, if_pos rfl]

theorem settle_fits_of_wellFormed (ho : h.Ordinary) (ha : WellFormed h a) (hb : WellFormed h b) :
    settle a b (Verdict.both (.ok (fits h a b)) (.ok (fits h b a))) =
      .ok (fits h a b && fits h b a) := by
  cases hg : a.hasGeneric || b.hasGeneric with
  | true =>
    rw [Verdict.both_ok_ok]
    exact settle_of_hasGeneric hg _
  | false =>
    obtain ⟨hga, hgb⟩ := Bool.or_eq_false_iff.mp hg
    exact settle_fits ho ⟨ha, hga⟩ ⟨hb, hgb⟩

theorem assignable_eq_fits (ho : h.Ordinary) (t c : Ty) (ht : WellFormed h t)
    (hc : WellFormed h c) : assignable h t c = .ok (fits h t c) := by
  fun_induction assignable h t c with
  | case1 p c => rw [fits]; rfl
  | case2 k i k' i' ih₁ ih₂ ih₃ ih₄ =>
    cases ht with | array hk hi =>
    cases hc with | array hk' hi' =>
    rw [ih₁ hi hi', ih₂ hi' hi, ih₃ hk hk', ih₄ hk' hk, settle_fits_of_wellFormed ho hi hi',
      settle_fits_of_wellFormed ho hk hk', Verdict.both_ok_ok, fits]
  | case3 n m => rw [fits]; rfl
  | case4 n m => rw [fits]; rfl
  | case5 n m => rw [fits]; rfl
  | case6 ts cs ih =>
    rw [fits_union_union]
    exact Verdict.all_map_eq_ok fun c hcs => Verdict.any_map_eq_ok fun t hts =>
      ih c hcs t hts (ht.of_mem_members hts).1 (hc.of_mem_members hcs).1
  | case7 ts c hno ih =>
    rw [fits_union_left h ts hno]
    exact Verdict.any_map_eq_ok fun t hts => ih t hts (ht.of_mem_members hts).1 hc
  | case8 t c h₁ h₂ h₃ h₄ h₅ h₆ h₇ =>
    rw [fits]
    · rfl
    all_goals assumption

theorem equal_eq_fits (ho : h.Ordinary) (ha : WellFormed h a) (hb : WellFormed h b) :
    equal h a b = .ok (fits h a b && fits h b a) := by
  rw [equal, assignable_eq_fits ho a b ha hb, assignable_eq_fits ho b a hb ha,
    settle_fits_of_wellFormed ho ha hb]

theorem assignable_eq_ok (ho : h.Ordinary) (t c : Ty) (ht : Concrete h t) (hc : Concrete h c) :
    assignable h t c = .ok (fits h t c) :=
  assignable_eq_fits ho t c ht.wellFormed hc.wellFormed

theorem equal_eq_ok (ho : h.Ordinary) (ha : Concrete h a) (hb : Concrete h b) :
    equal h a b = .ok (decide (a = b)) := by
  rw [equal, assignable_eq_ok ho a b ha hb, assignable_eq_ok ho b a hb ha, settle_fits ho ha hb]
  congr 1
  rw [Bool.eq_iff_iff, mutual_fits_iff ho ha hb, decide_eq_true_iff]

/-- **Equality, names and structure agree.**  In a checked table with plain names every question
about two types that can be built without generic parameters has an answer, and the two are equal
exactly if they have the same name, and have the same name exactly if they are identical. -/
theorem equal_iff_name_iff_identical (t : Table) (hcheck : t.check = .ok ()) (hplain : t.Plain)
    (a b : Ty) (ha : Built t.hierarchy a) (hb : Built t.hierarchy b)
    (hga : a.hasGeneric = false) (hgb : b.hasGeneric = false) :
    (∃ r, assignable t.hierarchy a b = .ok r) ∧
      ∃ e, equal t.hierarchy a b = .ok e ∧ (e = true ↔ a.name = b.name) ∧
        (a.name = b.name ↔ a = b) := by
  have ho := Table.ordinary hcheck hplain
  have hca : Concrete t.hierarchy a := ⟨ha.wellFormed, hga⟩
  have hcb : Concrete t.hierarchy b := ⟨hb.wellFormed, hgb⟩
  have hname := name_eq_iff ho hca hcb
  refine ⟨⟨_, assignable_eq_ok ho a b hca hcb⟩, _, equal_eq_ok ho hca hcb, ?_, hname⟩
  rw [decide_eq_true_iff, hname]

/-- an array of unions and a union of an array have names that differ by a group only -/
theorem equal_iff_name_iff_identical_of_group :
    (Ty.arrayOf (.union [.cls "Base", .null])).name = "(Base|null)[]" ∧
      (Ty.union [.arrayOf (.cls "Base"), .null]).name = "Base[]|null" ∧
      equal Table.handlers.hierarchy (.arrayOf (.union [.cls "Base", .null]))
        (.union [.arrayOf (.cls "Base"), .null]) = .ok false := by
  have ha : Built Table.handlers.hierarchy (.arrayOf (.union [.cls "Base", .null])) :=
    .ofText (show (Ty.ofText _ none "(null|Leaf|Base)[]").result = _ by decide +kernel)
  have hbase : Built Table.handlers.hierarchy (.cls "Base") :=
    .classOfText (show (Ty.classOfText _ "Base").result = _ by decide +kernel)
  have hb : Built Table.handlers.hierarchy (.union [.arrayOf (.cls "Base"), .null]) :=
    .orNull (.arrayOf hbase) (by decide +kernel)
  obtain ⟨-, e, he, hname, -⟩ := equal_iff_name_iff_identical Table.handlers (by decide) (by decide)
    _ _ ha hb (by decide) (by decide)
  refine ⟨by decide +kernel, by decide +kernel, ?_⟩
  rw [he]
  cases e with
  | false => rfl
  | true => exact absurd (hname.mp rfl) (by decide +kernel)

end TypeHint
