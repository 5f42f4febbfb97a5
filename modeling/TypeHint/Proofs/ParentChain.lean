import TypeHint.Proofs.Listings
import TypeHint.Proofs.Pieces

/-!
# Properties along the chain of parents

Properties are looked for in everything above a class, level by level.  In a checked table only
parents lead from a class to a class, so that the classes among these names are the class, its
parent, the parent of its parent and so on, in this order.

* `Table.ParentChain t c cs`        `cs` is the chain of parents from `c` to a class without parent
* `Table.exists_parentChain`        in a checked table every class has one
* `Table.filter_isClass_searchOrder`  its names are the classes of the search order
* `properties_along_parents`        what follows for the list of properties and for a single one
-/

namespace TypeHint

open Text

namespace Table

variable {t : Table} {c p : Class} {cs : List Class} {a b x y : String}

/-- a class, its parent, the parent of its parent and so on, up to a class without parent -/
inductive ParentChain (t : Table) : Class → List Class → Prop
  | root {c : Class} : c ∈ t.classes → c.parent = none → ParentChain t c [c]
  | step {c p : Class} {cs : List Class} : c ∈ t.classes → c.parent = some p.name →
      ParentChain t p cs → ParentChain t c (c :: cs)

/-! ## chains exist -/

/-- in a checked table fewer names are above a direct supertype -/
theorem length_properAncestors_lt (hcheck : t.check = .ok ()) (h : t.Edge a b) :
    (t.properAncestors b).length < (t.properAncestors a).length := by
  have hab : t.isBelow a b = true := by
    have hreach : t.Reaches a b := .single (step_iff_edge.mpr h)
    refine isBelow_iff.mpr ⟨?_, hreach⟩
    rintro rfl
    exact not_reaches_self_of_check hcheck hreach
  have hsub : b :: t.properAncestors b ⊆ t.properAncestors a := by
    refine List.cons_subset.mpr ⟨mem_properAncestors.mpr hab, fun x hx => ?_⟩
    exact mem_properAncestors.mpr (isBelow_trans hcheck hab (mem_properAncestors.mp hx))
  exact (List.subperm_of_subset (t.searchOrder_nodup b) hsub).length_le

theorem exists_parentChain (hcheck : t.check = .ok ()) (hc : c ∈ t.classes) :
    ∃ cs, t.ParentChain c cs := by
  -- on the number of names above, since `Class` is not recursive
  induction h : (t.properAncestors c.name).length using Nat.strong_induction_on generalizing c with
  | _ n ih =>
    cases hp : c.parent with
    | none => exact ⟨[c], .root hc hp⟩
    | some b =>
      obtain ⟨hsound, -, -⟩ := check_eq_ok_iff_sound.mp hcheck
      obtain ⟨p, hpc, rfl⟩ := List.mem_map.mp ((hsound c hc).parent b hp)
      have hlt := length_properAncestors_lt hcheck (.parent hc hp)
      obtain ⟨cs, hcs⟩ := ih _ (h ▸ hlt) hpc rfl
      exact ⟨c :: cs, .step hc hp hcs⟩

/-! ## classes above a class -/

theorem parent_eq_of_edge (hcheck : t.check = .ok ()) (hc : c ∈ t.classes)
    (h : t.Edge c.name b) (hb : t.isClass b = true) : c.parent = some b := by
  obtain ⟨d, hd, hname, hp⟩ := parent_of_edge hcheck h hb
  rw [← List.inj_on_of_nodup_map t.nodup_classes hd hc hname]
  exact hp

theorem isClass_of_mem (hc : c ∈ t.classes) : t.isClass c.name = true :=
  isClass_iff.mpr (List.mem_map_of_mem hc)

theorem above_parent (hcheck : t.check = .ok ()) (hc : c ∈ t.classes)
    (h : Relation.ReflTransGen t.Edge c.name x) (hx : t.isClass x = true) :
    x = c.name ∨ ∃ b, c.parent = some b ∧ Relation.ReflTransGen t.Edge b x := by
  rcases h.cases_head with e | ⟨b, hcb, hbx⟩
  · exact Or.inl e.symm
  · obtain ⟨k, hk⟩ := exists_climb hbx
    exact Or.inr ⟨b, parent_eq_of_edge hcheck hc hcb (isClass_of_climb hcheck hk hx), hbx⟩

theorem ParentChain.mem_iff (hcheck : t.check = .ok ()) (h : t.ParentChain c cs) :
    x ∈ cs.map Class.name ↔ t.isClass x = true ∧ Relation.ReflTransGen t.Edge c.name x := by
  induction h with
  | root hc hp =>
    rw [List.map_singleton, List.mem_singleton]
    constructor
    · rintro rfl
      exact ⟨isClass_of_mem hc, .refl⟩
    · rintro ⟨hx, hcx⟩
      refine (above_parent hcheck hc hcx hx).resolve_right ?_
      rintro ⟨b, hb, -⟩
      rw [hp] at hb
      cases hb
  | step hc hp _ ih =>
    rw [List.map_cons, List.mem_cons, ih]
    constructor
    · rintro (rfl | ⟨hx, hpx⟩)
      · exact ⟨isClass_of_mem hc, .refl⟩
      · exact ⟨hx, .head (.parent hc hp) hpx⟩
    · rintro ⟨hx, hcx⟩
      refine (above_parent hcheck hc hcx hx).imp_right ?_
      rintro ⟨b, hb, hbx⟩
      cases hp.symm.trans hb
      exact ⟨hx, hbx⟩

theorem ParentChain.name_notMem (hcheck : t.check = .ok ()) (hc : c ∈ t.classes)
    (hp : c.parent = some p.name) (h : t.ParentChain p cs) : c.name ∉ cs.map Class.name := by
  intro hmem
  obtain ⟨-, -, hacyclic⟩ := check_eq_ok_iff_sound.mp hcheck
  exact hacyclic c.name (.head' (.parent hc hp) ((h.mem_iff hcheck).mp hmem).2)

theorem ParentChain.nodup (hcheck : t.check = .ok ()) (h : t.ParentChain c cs) :
    (cs.map Class.name).Nodup := by
  induction h with
  | root => exact List.nodup_singleton _
  | step hc hp hcs ih => exact List.nodup_cons.mpr ⟨hcs.name_notMem hcheck hc hp, ih⟩

/-! ## the order of the classes -/

theorem NoFarther.of_parent (hcheck : t.check = .ok ()) (hc : c ∈ t.classes)
    (hp : c.parent = some b) (h : t.NoFarther b x y) (hy : t.isClass y = true)
    (hyc : y ≠ c.name) : t.NoFarther c.name x y := by
  intro k hk
  cases k with
  | zero => exact absurd (climb_zero_iff.mp hk) hyc
  | succ k =>
    obtain ⟨z, hcz, hzy⟩ := climb_head.mp hk
    cases hp.symm.trans (parent_eq_of_edge hcheck hc hcz (isClass_of_climb hcheck hzy hy))
    obtain ⟨j, hj, hjx⟩ := h k hzy
    exact ⟨j + 1, by omega, climb_head.mpr ⟨b, hcz, hjx⟩⟩

theorem ParentChain.nearest (hcheck : t.check = .ok ()) (h : t.ParentChain c cs) :
    (cs.map Class.name).Pairwise (t.NoFarther c.name) := by
  induction h with
  | root => exact List.pairwise_singleton _ _
  | step hc hp hcs ih =>
    refine List.pairwise_cons.mpr ⟨fun y _ k _ => ⟨0, by omega, .here⟩, ih.imp_of_mem ?_⟩
    intro x y _ hy hxy
    refine hxy.of_parent hcheck hc hp ((hcs.mem_iff hcheck).mp hy).1 ?_
    rintro rfl
    exact hcs.name_notMem hcheck hc hp hy

/-- two classes above a type are not equally far from it -/
theorem NoFarther.antisymm (hcheck : t.check = .ok ()) (hx : t.isClass x = true)
    (hy : t.isClass y = true) (hax : Relation.ReflTransGen t.Edge a x)
    (hay : Relation.ReflTransGen t.Edge a y) (hxy : t.NoFarther a x y) (hyx : t.NoFarther a y x) :
    x = y := by
  have hleastx := isLeast_sInf_climb hax
  have hleasty := isLeast_sInf_climb hay
  have hle := hxy.le hleastx hleasty
  have hge := hyx.le hleasty hleastx
  have hclimb := climb_between hcheck hx hy hleastx.1 hleasty.1 hle
  rw [Nat.sub_eq_zero_of_le hge] at hclimb
  exact (climb_zero_iff.mp hclimb).symm

/-- the classes of the search order are the chain of parents -/
theorem filter_isClass_searchOrder (hcheck : t.check = .ok ()) (h : t.ParentChain c cs) :
    (c.name :: t.properAncestors c.name).filter t.isClass = cs.map Class.name := by
  have hmem : ∀ x, x ∈ (c.name :: t.properAncestors c.name).filter t.isClass ↔
      t.isClass x = true ∧ Relation.ReflTransGen t.Edge c.name x := by
    intro x
    rw [List.mem_filter, mem_searchOrder_iff, and_comm]
  refine List.Perm.eq_of_pairwise ?_ ((t.searchOrder_nearest c.name).filter _)
    (h.nearest hcheck) ?_
  · intro x y hx hy hxy hyx
    obtain ⟨hxc, hcx⟩ := (hmem x).mp hx
    obtain ⟨hyc, hcy⟩ := (h.mem_iff hcheck).mp hy
    exact hxy.antisymm hcheck hxc hyc hcx hcy hyx
  · rw [List.perm_ext_iff_of_nodup ((t.searchOrder_nodup c.name).filter _) (h.nodup hcheck)]
    intro x
    rw [hmem, h.mem_iff hcheck]

/-! ## properties -/

theorem ParentChain.mem_classes (h : t.ParentChain c cs) {d : Class} (hd : d ∈ cs) :
    d ∈ t.classes := by
  induction h with
  | root hc _ => exact List.mem_singleton.mp hd ▸ hc
  | step hc _ _ ih =>
    rcases List.mem_cons.mp hd with rfl | hd
    · exact hc
    · exact ih hd

theorem find?_of_mem_classes (hc : c ∈ t.classes) : t.find? c.name = some (.ofClass c) :=
  find?_eq_some_iff.mpr ⟨Table.mem_classes.mp hc, rfl⟩

theorem declaredProperties_of_mem (hc : c ∈ t.classes) :
    t.declaredProperties c.name = c.properties.map (Member.mk (.ofClass c)) := by
  rw [declaredProperties, find?_of_mem_classes hc]
  rfl

theorem declaredProperties_of_not_isClass (hx : t.isClass x = false) :
    t.declaredProperties x = [] := by
  unfold declaredProperties
  cases e : t.find? x with
  | none => rfl
  | some s =>
    cases s with
    | ofInterface i => rfl
    | ofClass d =>
      rw [isClass, findClass?, e] at hx
      cases hx

theorem flatMap_declaredProperties_filter (xs : List String) :
    xs.flatMap t.declaredProperties = (xs.filter t.isClass).flatMap t.declaredProperties := by
  induction xs with
  | nil => rfl
  | cons x xs ih =>
    rw [List.flatMap_cons, ih]
    cases hx : t.isClass x with
    | true => rw [List.filter_cons_of_pos hx, List.flatMap_cons]
    | false =>
      rw [List.filter_cons_of_neg (by simp [hx]), declaredProperties_of_not_isClass hx,
        List.nil_append]

/-- the properties that classes declare, one class after the other, with their owners -/
def propertiesAlong (cs : List Class) : List (Member Property) :=
  cs.flatMap fun d => d.properties.map (Member.mk (.ofClass d))

theorem declaredProperties_along (hcheck : t.check = .ok ()) (h : t.ParentChain c cs) :
    (c.name :: t.properAncestors c.name).flatMap t.declaredProperties = propertiesAlong cs := by
  rw [flatMap_declaredProperties_filter, filter_isClass_searchOrder hcheck h, List.flatMap_map]
  exact List.flatMap_congr fun d hd => declaredProperties_of_mem (h.mem_classes hd)

theorem properties_of_parentChain (hcheck : t.check = .ok ()) (h : t.ParentChain c cs) :
    t.properties c.name = .ok (freshBy (·.decl.bareName) [] (propertiesAlong cs)) := by
  have hc : c ∈ t.classes := by
    cases h with
    | root hc _ => exact hc
    | step hc _ _ => exact hc
  rw [← declaredProperties_along hcheck h, properties, getClass, findClass?, searchOrder,
    find?_of_mem_classes hc]
  rfl

/-! ## a single property -/

/-- the first property of this name along a list of classes, with its owner -/
def nearestProperty? (cs : List Class) (bare : String) : Option (Member Property) :=
  cs.findSome? fun d => (d.properties.find? (·.bareName == bare)).map (Member.mk (.ofClass d))

/-- leaving out later properties of the same name does not change which one is first -/
theorem find?_freshBy_along (cs : List Class) (bare : String) :
    (freshBy (·.decl.bareName) [] (propertiesAlong cs)).find? (·.decl.bareName == bare) =
      nearestProperty? cs bare := by
  have hkept : (freshBy (·.decl.bareName) [] (propertiesAlong cs)).find? (·.decl.bareName == bare) =
      (propertiesAlong cs).find? (·.decl.bareName == bare) := find?_freshBy List.not_mem_nil
  rw [hkept, propertiesAlong, List.find?_flatMap]
  simp only [List.find?_map]
  rfl

theorem property_of_parentChain (hcheck : t.check = .ok ()) (h : t.ParentChain c cs)
    {name bare : String} (hname : stripLeading sigil name = bare) : t.property c.name name =
      match nearestProperty? cs bare with
      | some p => .ok p
      | none => .error (.noMember c.name (String.singleton sigil ++ bare)) := by
  rw [property, properties_of_parentChain hcheck h, hname, ← find?_freshBy_along cs bare]
  rfl

theorem find?_property_eq_none {d : Class} {bare : String}
    (hd : ∀ q ∈ d.properties, q.bareName ≠ bare) :
    (d.properties.find? (·.bareName == bare)).map (Member.mk (.ofClass d)) = none := by
  rw [Option.map_eq_none_iff, List.find?_eq_none]
  exact fun q hq e => hd q hq (beq_iff_eq.mp e)

/-- only what stands in front of a declaration can hide it -/
theorem nearestProperty?_append {front back : List Class} {d : Class} {bare : String} {q : Property}
    (hfront : ∀ e ∈ front, ∀ q ∈ e.properties, q.bareName ≠ bare)
    (hq : d.properties.find? (·.bareName == bare) = some q) :
    nearestProperty? (front ++ d :: back) bare = some ⟨.ofClass d, q⟩ := by
  refine List.findSome?_eq_some_iff.mpr ⟨front, d, back, rfl, ?_, ?_⟩
  · rw [hq]
    rfl
  · exact fun e he => find?_property_eq_none (hfront e he)

theorem nearestProperty?_eq_none {bare : String}
    (hno : ∀ d ∈ cs, ∀ q ∈ d.properties, q.bareName ≠ bare) : nearestProperty? cs bare = none :=
  List.findSome?_eq_none_iff.mpr fun d hd => find?_property_eq_none (hno d hd)

def baseFigure : Class :=
  ⟨"Base", none, ["Named"], true, [], [], [⟨"$id", none⟩, ⟨"name", none⟩]⟩

def formFigure : Class := ⟨"Form", some "Base", ["Shape"], true, [], [], [⟨"$name", none⟩]⟩

def squareFigure : Class :=
  ⟨"Square", some "Form", ["Shape"], false, [], [], [⟨"$$side", none⟩, ⟨"id", none⟩]⟩

def figures : Table where
  symbols := [.ofInterface ⟨"Named", [], [], []⟩, .ofInterface ⟨"Shape", ["Named"], [], []⟩,
    .ofClass baseFigure, .ofClass formFigure, .ofClass squareFigure]
  nodup := by decide

theorem parentChain_figures :
    figures.ParentChain squareFigure [squareFigure, formFigure, baseFigure] :=
  .step (by decide) rfl (.step (by decide) rfl (.root (by decide) rfl))

end Table

/-- **Properties are those of the chain of parents.**  In a checked table every class has a chain of
parents, and its properties are those declared along the chain, of each name the first.  A single
property, written with any number of `$` in front, is the one that is declared nearest on the chain,
and there is none if no class of the chain declares it. -/
theorem properties_along_parents (t : Table) (hcheck : t.check = .ok ()) (c : Class)
    (hc : c ∈ t.classes) :
    (∃ chain, t.ParentChain c chain) ∧
    ∀ chain, t.ParentChain c chain →
      t.properties c.name = .ok ((Table.propertiesAlong chain).eraseDupsBy
        (·.decl.bareName == ·.decl.bareName)) ∧
      ∀ (bare : String) (k : Nat), bare.toList.head? ≠ some '$' →
        (∀ front d back p, chain = front ++ d :: back →
          (∀ e ∈ front, ∀ q ∈ e.properties, q.bareName ≠ bare) →
          d.properties.find? (·.bareName == bare) = some p →
          t.property c.name (String.ofList (List.replicate k '$') ++ bare) =
            .ok ⟨.ofClass d, p⟩) ∧
        ((∀ d ∈ chain, ∀ q ∈ d.properties, q.bareName ≠ bare) →
          t.property c.name (String.ofList (List.replicate k '$') ++ bare) =
            .error (.noMember c.name ("$" ++ bare))) := by
  refine ⟨Table.exists_parentChain hcheck hc, fun chain hchain => ⟨?_, fun bare k hbare => ?_⟩⟩
  · rw [Table.properties_of_parentChain hcheck hchain, freshBy_nil_eq]
  · have hsearch := Table.property_of_parentChain hcheck hchain
      (stripLeading_replicate hbare k)
    constructor
    · rintro front d back p rfl hfront hp
      rw [Table.nearestProperty?_append hfront hp] at hsearch
      exact hsearch
    · intro hno
      rw [Table.nearestProperty?_eq_none hno] at hsearch
      exact hsearch

/-- five declarations of three names: the lowest class hides one of the highest, and the class
between them another one -/
theorem properties_along_parents_of_figures :
    Table.figures.check = .ok () ∧
    (∃ ps, Table.figures.properties "Square" = .ok ps ∧
      ps.map (fun p => (p.decl.name, p.owner.name)) =
        [("$$side", "Square"), ("id", "Square"), ("$name", "Form")]) ∧
    (∃ p, Table.figures.property "Square" "$$$name" = .ok p ∧ p.owner.name = "Form") ∧
    Table.figures.property "Square" "$area" = .error (.noMember "Square" "$area") := by
  have hcheck : Table.figures.check = .ok () := by decide
  obtain ⟨hall, hone⟩ := (properties_along_parents Table.figures hcheck Table.squareFigure
    (by decide)).2 _ Table.parentChain_figures
  obtain ⟨hname, -⟩ := hone "name" 3 (by decide)
  obtain ⟨-, harea⟩ := hone "area" 1 (by decide)
  refine ⟨hcheck, ⟨_, hall, by decide⟩, ⟨_, hname [_] _ _ _ rfl ?_ rfl, rfl⟩, harea ?_⟩
  · decide
  · decide

end TypeHint
