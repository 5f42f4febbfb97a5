import TypeHint.Proofs.Join

/-!
# Members with the same kind and name

Members are merged by kind and name before any of them is compared with another.  Without generic
parameters this merges equal types only.  With them it does not: parameters of two classes may have
one name, and an array of a parameter may be named like an array of a class or a primitive type.  Of
such members only the first is looked at.

* `firstNamesake ts m`      the first member with the kind and name of `m`
* `mem_candidates_iff`      the candidates are the members that come first
* `eq_or_determined`        who accepts a member is `mixed`, or it, or kind and name determine it
* `held_survivors_iff`      so a member that comes first is kept or accepted, and no other
-/

namespace TypeHint

open TypeHint.Union

/-- the first member of the given types with the kind and name of `m` -/
def firstNamesake (ts : List Ty) (m : Ty) : Option Ty :=
  (ts.flatMap Ty.members).find? fun x => decide (x.kind = m.kind ∧ x.name = m.name)

/-- kind and name leave one type -/
def Ty.isDetermined (t : Ty) : Bool := t.isPrimitive || t.isObject

variable {h : Hierarchy} {ts : List Ty} {m r x : Ty}

/-! ## namesakes -/

theorem firstNamesake_eq_some (hx : firstNamesake ts m = some x) :
    x ∈ ts.flatMap Ty.members ∧ x.kind = m.kind ∧ x.name = m.name := by
  rw [firstNamesake] at hx
  have hkey := List.find?_some hx
  exact ⟨List.mem_of_find?_eq_some hx, of_decide_eq_true hkey⟩

theorem firstNamesake_of_mem_candidates (hm : m ∈ candidates ts) :
    firstNamesake ts m = some m := by
  rw [candidates, mem_sortBy] at hm
  rw [← find?_of_mem_freshBy hm, firstNamesake]
  congr 1
  funext x
  exact decide_eq_decide.mpr (iff_of_eq (Prod.mk.injEq _ _ _ _).symm)

theorem mem_candidates_iff (hm : m ∈ ts.flatMap Ty.members) :
    m ∈ candidates ts ↔ firstNamesake ts m = some m := by
  refine ⟨firstNamesake_of_mem_candidates, fun hfirst => ?_⟩
  obtain ⟨t, ht, hmt⟩ := List.mem_flatMap.mp hm
  obtain ⟨c, hc, hkind, hname⟩ := exists_mem_candidates ht hmt
  have hcm : firstNamesake ts c = firstNamesake ts m := by
    rw [firstNamesake, firstNamesake, hkind, hname]
  rw [firstNamesake_of_mem_candidates hc, hfirst] at hcm
  rw [← Option.some.inj hcm]
  exact hc

theorem eq_of_isDetermined (hm : m.isDetermined = true) (hkind : x.kind = m.kind)
    (hname : x.name = m.name) : x = m := by
  cases m with
  | primitive p =>
    cases x with
    | primitive q => rw [Primitive.name_inj hname]
    | array | cls | iface | union | generic => cases hkind
  | cls n =>
    cases x with
    | cls l => exact congrArg Ty.cls hname
    | primitive | array | iface | union | generic => cases hkind
  | iface n =>
    cases x with
    | iface l => exact congrArg Ty.iface hname
    | primitive | array | cls | union | generic => cases hkind
  | array | union | generic => cases hm

theorem firstNamesake_of_isDetermined (hm : m ∈ ts.flatMap Ty.members)
    (hdet : m.isDetermined = true) : firstNamesake ts m = some m := by
  cases hx : firstNamesake ts m with
  | none =>
    rw [firstNamesake, List.find?_eq_none] at hx
    exact absurd (decide_eq_true ⟨rfl, rfl⟩) (hx m hm)
  | some x =>
    obtain ⟨-, hkind, hname⟩ := firstNamesake_eq_some hx
    rw [eq_of_isDetermined hdet hkind hname]

/-- members that share kind and name are arrays or generic parameters, and a generic parameter
occurs in one of them, unless they are the same -/
theorem namesakes (ho : h.Ordinary) (hx : WellFormed h x) (hm : WellFormed h m)
    (hunion : m.kind ≠ .union) (hkind : x.kind = m.kind) (hname : x.name = m.name) (hne : x ≠ m) :
    (m.kind = .array ∨ m.kind = .generic) ∧ (x.hasGeneric || m.hasGeneric) = true := by
  constructor
  · have hfree : m.isDetermined = false :=
      Bool.eq_false_iff.mpr fun hdet => hne (eq_of_isDetermined hdet hkind hname)
    cases m with
    | array | generic => simp [Ty.kind]
    | union => exact absurd rfl hunion
    | primitive | cls | iface => cases hfree
  · by_contra hno
    obtain ⟨hgx, hgm⟩ := Bool.or_eq_false_iff.mp (Bool.eq_false_iff.mpr hno)
    exact hne ((name_eq_iff ho ⟨hx, hgx⟩ ⟨hm, hgm⟩).mp hname)

/-! ## who accepts a member -/

/-- arrays accept each other, and so themselves: no generic parameter occurs in them, and they are
identical -/
theorem eq_or_determined (ho : h.Ordinary) (hr : WellFormed h r) (hm : WellFormed h m)
    (hru : r.kind ≠ .union) (hmu : m.kind ≠ .union) (hf : fits h r m = true) :
    r = .mixed ∨ r = m ∨ m.isDetermined = true := by
  cases fits_iff.mp hf with
  | same p => exact .inr (.inl rfl)
  | mixed => exact .inl rfl
  | object hobj =>
    rw [Ty.members_of_kind_ne_union hmu] at hobj
    refine .inr (.inr ?_)
    rw [Ty.isDetermined, hobj m List.mem_cons_self, Bool.or_true]
  | callable hn =>
    refine .inr (.inr ?_)
    rw [Ty.isDetermined, Ty.isObject_of_objectName? hn, Bool.or_true]
  | array hi hi' hk hk' =>
    have hback := fits_iff.mpr (.array hi' hi hk' hk)
    have hgr := (fits_self_iff hr).mp (fits_trans ho.lawful hr hm hr hf hback)
    have hgm := (fits_self_iff hm).mp (fits_trans ho.lawful hm hr hm hback hf)
    exact .inr (.inl (fits_antisymm ho ⟨hr, hgr⟩ ⟨hm, hgm⟩ hf hback))
  | cls | iface | implements => exact .inr (.inr rfl)
  | union => exact absurd rfl hru

/-! ## what is left of the members -/

def survivors (h : Hierarchy) (ts : List Ty) : List Ty := (candidates ts).foldl (addMember h) []

section

variable (ho : h.Ordinary) (hts : ∀ t ∈ ts, WellFormed h t)
include ho hts

theorem reduce_candidates : (reduce h [] (candidates ts)).result = .ok (survivors h ts) :=
  reduce_eq_foldl ho nofun fun _ hc => (wellFormed_of_mem_candidates hts hc).1

theorem mem_candidates_of_mem_survivors (hr : r ∈ survivors h ts) : r ∈ candidates ts :=
  (reduce_kept (.nil h) (reduce_candidates ho hts)).sublist.subset hr

theorem held_of_mem_candidates (hm : m ∈ candidates ts) : Held h (survivors h ts) m := by
  have hnil : ∀ k ∈ ([] : List Ty), WellFormed h k := nofun
  exact reduce_holds ho.lawful hnil (fun _ hc => (wellFormed_of_mem_candidates hts hc).1)
    (wellFormed_of_mem_candidates hts hm).1 (.inr hm)

theorem mixed_mem_survivors (hmixed : Ty.mixed ∈ ts.flatMap Ty.members) :
    Ty.mixed ∈ survivors h ts := by
  have hmc := (mem_candidates_iff hmixed).mpr (firstNamesake_of_isDetermined hmixed rfl)
  rcases held_of_mem_candidates ho hts hmc with hmem | ⟨r, hr, hf⟩
  · exact hmem
  · have hrc := mem_candidates_of_mem_survivors ho hts hr
    rwa [eq_mixed_of_fits (wellFormed_of_mem_candidates hts hrc).2 hf] at hr

/-- every member that comes first is kept, or a kept member accepts it; of the others `mixed`
accepts all, and nothing else accepts any -/
theorem held_survivors_iff (hm : m ∈ ts.flatMap Ty.members) :
    Held h (survivors h ts) m ↔
      Ty.mixed ∈ ts.flatMap Ty.members ∨ firstNamesake ts m = some m := by
  obtain ⟨t, ht, hmt⟩ := List.mem_flatMap.mp hm
  obtain ⟨hmwf, hmu⟩ := (hts t ht).of_mem_members hmt
  constructor
  · rintro (hmem | ⟨r, hr, hf⟩)
    · exact .inr (firstNamesake_of_mem_candidates (mem_candidates_of_mem_survivors ho hts hmem))
    · have hrc := mem_candidates_of_mem_survivors ho hts hr
      obtain ⟨hrwf, hru⟩ := wellFormed_of_mem_candidates hts hrc
      rcases eq_or_determined ho hrwf hmwf hru hmu hf with rfl | rfl | hdet
      · exact .inl (List.mem_flatMap.mpr (exists_of_mem_candidates hrc))
      · exact .inr (firstNamesake_of_mem_candidates hrc)
      · exact .inr (firstNamesake_of_isDetermined hm hdet)
  · rintro (hmixed | hfirst)
    · exact .inr ⟨.mixed, mixed_mem_survivors ho hts hmixed, fits_iff.mpr (.mixed m)⟩
    · exact held_of_mem_candidates ho hts ((mem_candidates_iff hm).mpr hfirst)

end

/-- **Which members a union loses.**  In a checked table with plain names types can always be
united, whatever generic parameters occur in them.  A member is among the members of the result, or
is accepted by one of them, exactly if it is the first with its kind and name or `mixed` is a
member.  So without `mixed` a member is lost if a different one with its kind and name comes before
it.  The two are arrays or generic parameters then, and a generic parameter occurs in one of
them. -/
theorem unite_keeps_first_namesakes (t : Table) (hcheck : t.check = .ok ()) (hplain : t.Plain)
    (ts : List Ty) (hne : ts ≠ []) (hts : ∀ a ∈ ts, Built t.hierarchy a) :
    ∃ u, (Ty.unite t.hierarchy ts).result = .ok u ∧ ∀ m ∈ ts.flatMap Ty.members,
      ((m ∈ u.members ∨ ∃ r ∈ u.members, assignable t.hierarchy r m = .ok true) ↔
        Ty.mixed ∈ ts.flatMap Ty.members ∨ firstNamesake ts m = some m) ∧
      ∀ x, firstNamesake ts m = some x → x ≠ m →
        (m.kind = .array ∨ m.kind = .generic) ∧ (x.hasGeneric || m.hasGeneric) = true := by
  have ho := Table.ordinary hcheck hplain
  have hwf : ∀ a ∈ ts, WellFormed t.hierarchy a := fun a ha => (hts a ha).wellFormed
  have hmember : ∀ m ∈ ts.flatMap Ty.members, WellFormed t.hierarchy m ∧ m.kind ≠ .union := by
    intro m hm
    obtain ⟨a, ha, hma⟩ := List.mem_flatMap.mp hm
    exact (hwf a ha).of_mem_members hma
  have hsurvivor : ∀ r ∈ survivors t.hierarchy ts, WellFormed t.hierarchy r ∧ r.kind ≠ .union :=
    fun r hr => wellFormed_of_mem_candidates hwf (mem_candidates_of_mem_survivors ho hwf hr)
  refine ⟨_, (unite_eq_ok_iff hne).mpr ⟨_, reduce_candidates ho hwf, rfl⟩, fun m hm => ⟨?_, ?_⟩⟩
  · rw [members_ofMembers fun r hr => (hsurvivor r hr).2, ← held_survivors_iff ho hwf hm]
    refine or_congr_right (exists_congr fun r => and_congr_right fun hr => ?_)
    rw [assignable_eq_fits ho r m (hsurvivor r hr).1 (hmember m hm).1, Except.ok.injEq]
  · intro x hx hne
    obtain ⟨hxm, hkind, hname⟩ := firstNamesake_eq_some hx
    exact namesakes ho (hmember x hxm).1 (hmember m hm).1 (hmember m hm).2 hkind hname hne

def Table.containers : Table where
  symbols := [.ofClass ⟨"Box", none, [], false, [], [], []⟩,
    .ofClass ⟨"Bag", none, [], false, [], [], []⟩]
  nodup := by decide

def boxAndBag : List Ty := [.generic "T" (.cls "Box"), .generic "T" (.cls "Bag")]

/-- an array of a parameter that is named like a primitive type, and an array of that type -/
def stringArrays : List Ty :=
  [.arrayOf (.generic "string" (.cls "Box")), .arrayOf (.primitive .string)]

theorem built_containers : ∀ a ∈ boxAndBag ++ stringArrays, Built Table.containers.hierarchy a := by
  have hbox : Built Table.containers.hierarchy (.cls "Box") :=
    .classOfText (show (Ty.classOfText _ "Box").result = _ by decide +kernel)
  have hbag : Built Table.containers.hierarchy (.cls "Bag") :=
    .classOfText (show (Ty.classOfText _ "Bag").result = _ by decide +kernel)
  have hstrings : Built Table.containers.hierarchy (.arrayOf (.primitive .string)) :=
    .ofText (show (Ty.ofText _ none "string[]").result = _ by decide +kernel)
  simp only [boxAndBag, stringArrays, List.cons_append, List.nil_append, List.forall_mem_cons]
  exact ⟨.generic hbox, .generic hbag, .arrayOf (.generic hbox), hstrings, nofun⟩

/-- of four members the second and the last are lost, and each of them shares kind and name with the
one before it -/
theorem unite_keeps_first_namesakes_of_containers :
    (Ty.unite Table.containers.hierarchy (boxAndBag ++ stringArrays)).result =
      .ok (.union [.generic "T" (.cls "Box"), .arrayOf (.generic "string" (.cls "Box"))]) ∧
    ∀ m ∈ [.generic "T" (.cls "Bag"), Ty.arrayOf (.primitive .string)],
      ∀ r ∈ [.generic "T" (.cls "Box"), Ty.arrayOf (.generic "string" (.cls "Box"))],
        assignable Table.containers.hierarchy r m ≠ .ok true := by
  have hunite : (Ty.unite Table.containers.hierarchy (boxAndBag ++ stringArrays)).result =
      .ok (.union [.generic "T" (.cls "Box"), .arrayOf (.generic "string" (.cls "Box"))]) := by
    decide +kernel
  obtain ⟨u, hu, hkeeps⟩ := unite_keeps_first_namesakes Table.containers (by decide) (by decide)
    (boxAndBag ++ stringArrays) (List.cons_ne_nil _ _) built_containers
  rw [hunite] at hu
  cases hu
  have hlost : ∀ m ∈ [.generic "T" (.cls "Bag"), Ty.arrayOf (.primitive .string)],
      m ∈ (boxAndBag ++ stringArrays).flatMap Ty.members ∧
        ¬ (Ty.mixed ∈ (boxAndBag ++ stringArrays).flatMap Ty.members ∨
          firstNamesake (boxAndBag ++ stringArrays) m = some m) := by decide +kernel
  refine ⟨hunite, fun m hm r hr hrm => ?_⟩
  obtain ⟨hmember, hno⟩ := hlost m hm
  exact hno ((hkeeps m hmember).1.mp (.inr ⟨r, hr, hrm⟩))

/-- A generic parameter takes the place of a different type with its name.  Only the parameter of
`Box` is left of the parameters `T` of `Box` and of `Bag`, and only the array of the parameter of
the two arrays.  A list of texts belongs to the other array, but not to their union. -/
theorem namesake_of_generic_lost :
    Table.containers.check = .ok () ∧ Table.containers.Plain ∧
    (∀ a ∈ boxAndBag ++ stringArrays, Built Table.containers.hierarchy a) ∧
    (Ty.unite Table.containers.hierarchy boxAndBag).result = .ok (.generic "T" (.cls "Box")) ∧
    assignable Table.containers.hierarchy (.generic "T" (.cls "Box")) (.generic "T" (.cls "Bag")) =
      .ok false ∧
    (Ty.unite Table.containers.hierarchy stringArrays).result =
      .ok (.arrayOf (.generic "string" (.cls "Box"))) ∧
    assignable Table.containers.hierarchy (.arrayOf (.generic "string" (.cls "Box")))
      (.arrayOf (.primitive .string)) = .ok false ∧
    accepts Table.containers.hierarchy (.arrayOf (.primitive .string)) (.list [.text "a"]) = true ∧
    accepts Table.containers.hierarchy (.arrayOf (.generic "string" (.cls "Box")))
      (.list [.text "a"]) = false :=
  ⟨by decide, by decide, built_containers, by decide +kernel, by decide +kernel, by decide +kernel,
    by decide +kernel, by decide +kernel, by decide +kernel⟩

end TypeHint
