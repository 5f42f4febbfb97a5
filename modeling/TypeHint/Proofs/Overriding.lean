import TypeHint.Proofs.Validity

/-!
# Which declaration of a method is found

A method is looked for in a type and then in its ancestors, nearest first.  So the declaration that
is found is one with the fewest edges from the type.  Along a chain of parent classes the nearest
declaration is also the lowest.  An interface may be named next to one that extends it: then it is
no farther away, and its declaration can be found although a lower type declares the method too.

* `Table.Climb t a n b`          `b` is `n` edges above `a`
* `Table.Declares t d name`      `d` declares a method of this name, ignoring ASCII case
* `Table.searchOrder_nearest`    the search order goes from fewer edges to more
* `Table.climb_between`          two classes above a type lie on one chain
* `method_nearest`               what follows for the method that is found
-/

namespace TypeHint

open Text

namespace Table

variable {t : Table} {a b c d n name : String} {i j k : Nat}

/-- `b` is exactly `n` edges above `a` -/
inductive Climb (t : Table) (a : String) : Nat → String → Prop
  | here : Climb t a 0 a
  | up {n : Nat} {b c : String} : Climb t a n b → t.Edge b c → Climb t a (n + 1) c

def Declares (t : Table) (d name : String) : Prop :=
  ∃ s ∈ t.symbols, s.name = d ∧ ∃ m ∈ s.methods, foldCase m.name = foldCase name

/-! ## climbing -/

theorem climb_zero_iff : t.Climb a 0 b ↔ b = a :=
  ⟨fun h => by cases h; rfl, fun h => h ▸ .here⟩

theorem climb_succ_iff : t.Climb a (k + 1) c ↔ ∃ b, t.Climb a k b ∧ t.Edge b c := by
  constructor
  · intro h
    cases h with
    | up hab hbc => exact ⟨_, hab, hbc⟩
  · rintro ⟨b, hab, hbc⟩
    exact .up hab hbc

theorem climb_head : t.Climb a (k + 1) c ↔ ∃ b, t.Edge a b ∧ t.Climb b k c := by
  induction k generalizing c with
  | zero =>
    simp only [climb_succ_iff, climb_zero_iff]
    exact ⟨fun ⟨b, hb, h⟩ => ⟨c, hb ▸ h, rfl⟩, fun ⟨b, h, hb⟩ => ⟨a, rfl, hb ▸ h⟩⟩
  | succ k ih =>
    constructor
    · intro h
      obtain ⟨x, hax, hxc⟩ := climb_succ_iff.mp h
      obtain ⟨b, hab, hbx⟩ := ih.mp hax
      exact ⟨b, hab, .up hbx hxc⟩
    · rintro ⟨b, hab, hbc⟩
      obtain ⟨x, hbx, hxc⟩ := climb_succ_iff.mp hbc
      exact .up (ih.mpr ⟨b, hab, hbx⟩) hxc

theorem Climb.reflTransGen (h : t.Climb a k b) : Relation.ReflTransGen t.Edge a b := by
  induction h with
  | here => exact .refl
  | up _ hbc ih => exact ih.tail hbc

theorem exists_climb (h : Relation.ReflTransGen t.Edge a b) : ∃ k, t.Climb a k b := by
  induction h with
  | refl => exact ⟨0, .here⟩
  | tail _ hbc ih =>
    obtain ⟨k, hk⟩ := ih
    exact ⟨k + 1, .up hk hbc⟩

/-! ## levels are numbers of edges -/

/-- the names one step above `frontier` that are not yet expanded, each once -/
def level (t : Table) (expanded frontier : List String) : List String :=
  freshBy id expanded (frontier.flatMap t.parents)

theorem mem_level {expanded frontier : List String} :
    b ∈ t.level expanded frontier ↔ (∃ x ∈ frontier, t.Edge x b) ∧ b ∉ expanded := by
  rw [level, mem_freshBy_id, List.mem_flatMap]
  simp only [← step_iff_edge]
  rfl

/-- the queue is worked off from its front, and what that adds comes after the rest -/
theorem collect_append {expanded seen : List String} (hd : Done a seen expanded)
    (queue rest : List String) :
    t.collect a seen (queue ++ rest) =
      freshBy id expanded queue ++
        t.collect a ((freshBy id expanded queue).reverse ++ seen)
          (rest ++ (freshBy id expanded queue).flatMap t.parents) := by
  induction queue generalizing expanded seen rest with
  | nil => simp [freshBy]
  | cons x queue ih =>
    rw [List.cons_append, collect, freshBy]
    by_cases hx : x ∈ expanded
    · rw [if_pos ((hd x).mp hx), if_pos (show id x ∈ expanded from hx)]
      exact ih hd rest
    · rw [if_neg (mt (hd x).mpr hx), if_neg (show id x ∉ expanded from hx), List.append_assoc,
        ih (hd.cons x) (rest ++ t.parents x)]
      simp

theorem collect_level {expanded seen : List String} (hd : Done a seen expanded)
    (frontier : List String) :
    t.collect a seen (frontier.flatMap t.parents) =
      t.level expanded frontier ++
        t.collect a ((t.level expanded frontier).reverse ++ seen)
          ((t.level expanded frontier).flatMap t.parents) := by
  have h := collect_append (t := t) hd (frontier.flatMap t.parents) []
  rwa [List.append_nil, List.nil_append] at h

/-- `b` is `k` edges above `a`, and there is no shorter way -/
def AtLevel (t : Table) (a : String) (k : Nat) (b : String) : Prop :=
  t.Climb a k b ∧ ∀ j < k, ¬ t.Climb a j b

/-- whatever way leads from `a` to `c`, there is one to `b` that is no longer -/
def NoFarther (t : Table) (a b c : String) : Prop :=
  ∀ k, t.Climb a k c → ∃ j ≤ k, t.Climb a j b

section

variable {expanded frontier : List String}
  (hfront : ∀ x, x ∈ frontier ↔ t.AtLevel a k x)
  (hreach : ∀ x, x ∈ expanded ↔ ∃ j ≤ k, t.Climb a j x)
include hfront hreach

theorem mem_level_iff (x : String) : x ∈ t.level expanded frontier ↔ t.AtLevel a (k + 1) x := by
  rw [mem_level]
  constructor
  · rintro ⟨⟨y, hy, hyx⟩, hx⟩
    refine ⟨.up ((hfront y).mp hy).1 hyx, fun j hj hc => ?_⟩
    exact hx ((hreach x).mpr ⟨j, by omega, hc⟩)
  · rintro ⟨hx, hleast⟩
    obtain ⟨y, hy, hyx⟩ := climb_succ_iff.mp hx
    refine ⟨⟨y, (hfront y).mpr ⟨hy, fun j hj hc => ?_⟩, hyx⟩, fun hs => ?_⟩
    · exact hleast (j + 1) (by omega) (.up hc hyx)
    · obtain ⟨j, hj, hc⟩ := (hreach x).mp hs
      exact hleast j (by omega) hc

theorem mem_level_append_iff (x : String) : x ∈ t.level expanded frontier ++ expanded ↔
    ∃ j ≤ k + 1, t.Climb a j x := by
  rw [List.mem_append, hreach, mem_level_iff hfront hreach]
  constructor
  · rintro (⟨hc, -⟩ | ⟨j, hj, hc⟩)
    · exact ⟨k + 1, le_rfl, hc⟩
    · exact ⟨j, by omega, hc⟩
  · rintro ⟨j, hj, hc⟩
    by_cases hs : ∃ i ≤ k, t.Climb a i x
    · exact Or.inr hs
    · have hjk : j = k + 1 := by
        by_contra hne
        exact hs ⟨j, by omega, hc⟩
      subst hjk
      exact Or.inl ⟨hc, fun i hi hc' => hs ⟨i, by omega, hc'⟩⟩

/-- a name that is not yet expanded is no nearer than the names of the next level -/
theorem noFarther_of_mem_level {x y : String} (hx : x ∈ t.level expanded frontier)
    (hy : y ∉ expanded) : t.NoFarther a x y := by
  intro j hj
  have hk : k < j := by
    by_contra hle
    exact hy ((hreach y).mpr ⟨j, by omega, hj⟩)
  exact ⟨k + 1, hk, ((mem_level_iff hfront hreach x).mp hx).1⟩

end

/-- names are listed in the order of their numbers of edges from `a` -/
theorem collect_nearest {expanded seen frontier : List String} (hd : Done a seen expanded)
    (hfront : ∀ x, x ∈ frontier ↔ t.AtLevel a k x)
    (hreach : ∀ x, x ∈ expanded ↔ ∃ j ≤ k, t.Climb a j x) :
    (t.collect a seen (frontier.flatMap t.parents)).Pairwise (t.NoFarther a) := by
  -- on the number of names still to be listed, one level at a time
  induction h : (t.collect a seen (frontier.flatMap t.parents)).length
    using Nat.strong_induction_on generalizing expanded seen frontier k with
  | _ n ih =>
    have hnew : ∀ y ∈ t.collect a seen (frontier.flatMap t.parents), y ∉ expanded :=
      fun y hy => mt (hd y).mp (new_of_mem_collect hy)
    rw [collect_level hd frontier] at h hnew ⊢
    cases hnil : t.level expanded frontier with
    | nil =>
      rw [List.flatMap_nil, collect]
      exact .nil
    | cons z zs =>
      rw [← hnil]
      refine List.pairwise_append.mpr ⟨?_, ?_, ?_⟩
      · refine List.pairwise_of_forall_mem_list fun x hx y hy => ?_
        exact noFarther_of_mem_level hfront hreach hx (hnew y (List.mem_append_left _ hy))
      · refine ih _ ?_ (hd.append _) (mem_level_iff hfront hreach)
          (mem_level_append_iff hfront hreach) rfl
        rw [← h, List.length_append, hnil, List.length_cons]
        omega
      · intro x hx y hy
        exact noFarther_of_mem_level hfront hreach hx (hnew y (List.mem_append_right _ hy))

theorem searchOrder_nearest (t : Table) (a : String) :
    (a :: t.properAncestors a).Pairwise (t.NoFarther a) := by
  refine List.pairwise_cons.mpr ⟨fun y _ k _ => ⟨0, by omega, .here⟩, ?_⟩
  have hfront : ∀ x, x ∈ [a] ↔ t.AtLevel a 0 x := by
    intro x
    rw [List.mem_singleton, AtLevel, climb_zero_iff]
    exact ⟨fun h => ⟨h, fun j hj => absurd hj (by omega)⟩, And.left⟩
  have hreach : ∀ x, x ∈ [a] ↔ ∃ j ≤ 0, t.Climb a j x := by
    intro x
    simp [climb_zero_iff]
  have hsorted := collect_nearest (done_start a) hfront hreach
  rwa [List.flatMap_singleton] at hsorted

/-! ## chains of classes -/

theorem parent_of_edge (hcheck : t.check = .ok ()) (h : t.Edge a b) (hb : t.isClass b = true) :
    ∃ c ∈ t.classes, c.name = a ∧ c.parent = some b := by
  obtain ⟨hclass, hiface, -⟩ := check_eq_ok_iff_sound.mp hcheck
  have hno : b ∉ t.interfaces.map Interface.name :=
    isInterface_eq_false_iff.mp (not_isInterface_of_isClass hb)
  cases h with
  | parent hc hp => exact ⟨_, hc, rfl, hp⟩
  | implemented hc hi => exact absurd ((hclass _ hc).interfaces _ hi) hno
  | extended hi hp => exact absurd (hiface _ hi _ hp) hno

theorem isClass_of_climb (hcheck : t.check = .ok ()) (h : t.Climb a k b)
    (hb : t.isClass b = true) : t.isClass a = true := by
  induction h with
  | here => exact hb
  | up _ hbc ih =>
    obtain ⟨c, hc, rfl, -⟩ := parent_of_edge hcheck hbc hb
    exact ih (isClass_iff.mpr (List.mem_map_of_mem hc))

theorem parent_unique (hcheck : t.check = .ok ()) (hb : t.Edge a b) (hc : t.Edge a c)
    (hbc : t.isClass b = true) (hcc : t.isClass c = true) : b = c := by
  obtain ⟨x, hx, hxa, hxb⟩ := parent_of_edge hcheck hb hbc
  obtain ⟨y, hy, hya, hyc⟩ := parent_of_edge hcheck hc hcc
  have hxy : x = y := List.inj_on_of_nodup_map t.nodup_classes hx hy (hxa.trans hya.symm)
  subst hxy
  exact Option.some.inj (hxb.symm.trans hyc)

theorem climb_between (hcheck : t.check = .ok ()) (hb : t.isClass b = true)
    (hc : t.isClass c = true) : ∀ {a : String} {i j : Nat}, t.Climb a i b → t.Climb a j c → i ≤ j →
      t.Climb b (j - i) c := by
  intro a i
  induction i generalizing a with
  | zero =>
    intro j hab hac _
    rw [climb_zero_iff.mp hab]
    exact hac
  | succ i ih =>
    intro j hab hac hij
    obtain ⟨k, rfl⟩ : ∃ k, j = k + 1 := ⟨j - 1, by omega⟩
    obtain ⟨x, hax, hxb⟩ := climb_head.mp hab
    obtain ⟨y, hay, hyc⟩ := climb_head.mp hac
    have hxy : x = y := parent_unique hcheck hax hay (isClass_of_climb hcheck hxb hb)
      (isClass_of_climb hcheck hyc hc)
    subst hxy
    rw [Nat.add_sub_add_right]
    exact ih hxb hyc (by omega)

/-! ## the method that is found -/

theorem declaredMethods_of_mem {s : Symbol} (hs : s ∈ t.symbols) :
    t.declaredMethods s.name = s.methods.map (⟨s, ·⟩) := by
  rw [declaredMethods, find?_eq_some_iff.mpr ⟨hs, rfl⟩]
  rfl

theorem mem_declaredMethods {m : Member Method} : m ∈ t.declaredMethods d ↔
    m.owner ∈ t.symbols ∧ m.owner.name = d ∧ m.decl ∈ m.owner.methods := by
  constructor
  · intro hm
    unfold declaredMethods at hm
    cases e : t.find? d with
    | none => rw [e] at hm; cases hm
    | some s =>
      obtain ⟨hs, hsd⟩ := find?_eq_some_iff.mp e
      rw [e] at hm
      obtain ⟨x, hx, rfl⟩ := List.mem_map.mp hm
      exact ⟨hs, hsd, hx⟩
  · rintro ⟨ho, rfl, hm⟩
    rw [declaredMethods_of_mem ho]
    exact List.mem_map_of_mem hm

theorem declares_iff : t.Declares d name ↔
    ∃ m ∈ t.declaredMethods d, foldCase m.decl.name = foldCase name := by
  constructor
  · rintro ⟨s, hs, rfl, m, hm, hname⟩
    exact ⟨⟨s, m⟩, mem_declaredMethods.mpr ⟨hs, rfl, hm⟩, hname⟩
  · rintro ⟨m, hm, hname⟩
    obtain ⟨ho, hd, hdecl⟩ := mem_declaredMethods.mp hm
    exact ⟨m.owner, ho, hd, m.decl, hdecl, hname⟩

/-- a method that is found is the first of its name in the first type of the search order that
declares the name -/
theorem method_eq_ok {m : Member Method} (hm : t.method a name = .ok m) :
    (m.owner ∈ t.symbols ∧
      m.owner.methods.find? (foldCase ·.name == foldCase name) = some m.decl) ∧
    ∃ front back, a :: t.properAncestors a = front ++ m.owner.name :: back ∧
      ∀ d ∈ front, ¬ t.Declares d name := by
  have ha : a ∈ t.names := by
    by_contra hno
    rw [method, searchOrder, if_neg (mt find?_isSome_iff.mp hno)] at hm
    cases hm
  rw [method_of_mem_names ha, List.find?_flatMap] at hm
  split at hm
  · rename_i m' hfind
    cases hm
    obtain ⟨front, d, back, hsplit, hd, hfront⟩ := List.findSome?_eq_some_iff.mp hfind
    obtain ⟨ho, rfl, -⟩ := mem_declaredMethods.mp (List.mem_of_find?_eq_some hd)
    rw [declaredMethods_of_mem ho, List.find?_map, Option.map_eq_some_iff] at hd
    obtain ⟨x, hx, hxm⟩ := hd
    refine ⟨⟨ho, hx.trans (congrArg (some ·.decl) hxm)⟩, front, back, hsplit, ?_⟩
    intro e he hdecl
    obtain ⟨y, hy, hname⟩ := declares_iff.mp hdecl
    exact absurd hname (by simpa using List.find?_eq_none.mp (hfront e he) y hy)
  · cases hm

theorem mem_searchOrder_iff :
    b ∈ a :: t.properAncestors a ↔ Relation.ReflTransGen t.Edge a b := by
  rw [mem_searchOrder_tail, reaches_iff_edges, Relation.reflTransGen_iff_eq_or_transGen]

theorem noFarther_of_method {m : Member Method} (hm : t.method a name = .ok m)
    (hd : Relation.ReflTransGen t.Edge a d) (hdecl : t.Declares d name) :
    t.NoFarther a m.owner.name d := by
  obtain ⟨-, front, back, hsplit, hfront⟩ := method_eq_ok hm
  have hmem := mem_searchOrder_iff.mpr hd
  have hsorted := t.searchOrder_nearest a
  rw [hsplit] at hmem hsorted
  rcases List.mem_append.mp hmem with hmem | hmem
  · exact absurd hdecl (hfront d hmem)
  · rcases List.mem_cons.mp hmem with rfl | hmem
    · exact fun k hk => ⟨k, le_rfl, hk⟩
    · exact (List.pairwise_cons.mp (List.pairwise_append.mp hsorted).2.1).1 d hmem

/-- what a class declares is hidden by everything below it -/
theorem not_declares_of_isClass {m : Member Method} (hcheck : t.check = .ok ())
    (hm : t.method a name = .ok m) (hclass : t.isClass m.owner.name = true)
    (hd : Relation.ReflTransGen t.Edge a d) (hbelow : t.isBelow d m.owner.name = true) :
    ¬ t.Declares d name := by
  intro hdecl
  have hreach := reaches_iff_edges.mp (isBelow_iff.mp hbelow).2
  obtain ⟨k, hk⟩ := exists_climb hd
  obtain ⟨j, hj, hjm⟩ := noFarther_of_method hm hd hdecl k hk
  obtain ⟨i, hi⟩ := exists_climb hreach.to_reflTransGen
  have hdclass := isClass_of_climb hcheck hi hclass
  -- the owner is no farther than `d`, so it is below `d` or `d` itself
  have hback := (climb_between hcheck hclass hdclass hjm hk hj).reflTransGen
  obtain ⟨-, -, hacyclic⟩ := check_eq_ok_iff_sound.mp hcheck
  exact hacyclic d (hreach.trans_left hback)

/-- an interface, one that extends it, and a class that implements both; each interface declares the
method -/
def polygons : Table where
  symbols := [.ofInterface ⟨"Shape", [], [], [⟨"area", [], none⟩]⟩,
    .ofInterface ⟨"Polygon", ["Shape"], [], [⟨"area", [], none⟩]⟩,
    .ofClass ⟨"Square", none, ["Shape", "Polygon"], false, [], [], []⟩]
  nodup := by decide

/-- a class that implements an interface next to a parent whose own parent implements it too -/
def inherited : Table where
  symbols := [.ofInterface ⟨"Shape", [], [], [⟨"Area", [], none⟩]⟩,
    .ofClass ⟨"Base", none, ["Shape"], true, [], [⟨"area", [], none⟩], []⟩,
    .ofClass ⟨"Form", some "Base", [], true, [], [], []⟩,
    .ofClass ⟨"Square", some "Form", ["Shape"], false, [], [], []⟩]
  nodup := by decide

end Table

/-- **The nearest declaration of a method is found.**  In a checked table, a method that is found is
declared by the type itself or above it, and no declaration of the same name takes fewer edges.  A
type below the one that declares it declares the method too only if that one is an interface, and no
farther away. -/
theorem method_nearest (t : Table) (hcheck : t.check = .ok ()) (ty name : String)
    (m : Member Method) (hm : t.method ty name = .ok m) :
    (m.owner ∈ t.symbols ∧ m.decl ∈ m.owner.methods ∧ foldCase m.decl.name = foldCase name ∧
      Relation.ReflTransGen t.Edge ty m.owner.name) ∧
    (∀ d k, t.Climb ty k d → t.Declares d name → ∃ j ≤ k, t.Climb ty j m.owner.name) ∧
    ∀ d, Relation.ReflTransGen t.Edge ty d → t.isBelow d m.owner.name = true →
      t.Declares d name → t.isInterface m.owner.name = true ∧
        ∀ k, t.Climb ty k d → ∃ j ≤ k, t.Climb ty j m.owner.name := by
  obtain ⟨⟨howner, hfind⟩, front, back, hsplit, -⟩ := Table.method_eq_ok hm
  have hname : foldCase m.decl.name = foldCase name := by simpa using List.find?_some hfind
  have habove : Relation.ReflTransGen t.Edge ty m.owner.name :=
    Table.mem_searchOrder_iff.mp (hsplit ▸ by simp)
  refine ⟨⟨howner, List.mem_of_find?_eq_some hfind, hname, habove⟩, ?_, ?_⟩
  · intro d k hk hd
    exact Table.noFarther_of_method hm hk.reflTransGen hd k hk
  · intro d hd hbelow hdeclares
    refine ⟨?_, Table.noFarther_of_method hm hd hdeclares⟩
    by_contra hno
    have hclass : t.isClass m.owner.name = true :=
      (Table.isClass_or_isInterface (List.mem_map_of_mem howner)).resolve_right hno
    exact Table.not_declares_of_isClass hcheck hm hclass hd hbelow hdeclares

/-- The declaration of an interface one edge away is found, and that of a class two edges away, which
is below the interface, is passed over.  The class itself finds its own declaration. -/
theorem method_nearest_of_inherited :
    Table.inherited.check = .ok () ∧
    Table.inherited.Declares "Base" "AREA" ∧ Table.inherited.isBelow "Base" "Shape" = true ∧
    (∃ m, Table.inherited.method "Square" "AREA" = .ok m ∧ m.owner.name = "Shape" ∧
      ∃ j ≤ 2, Table.inherited.Climb "Square" j m.owner.name) ∧
    ∃ m, Table.inherited.method "Base" "AREA" = .ok m ∧ m.owner.name = "Base" := by
  have hcheck : Table.inherited.check = .ok () := by decide
  have hdecl : Table.inherited.Declares "Base" "AREA" := by unfold Table.Declares; decide
  have hform : Table.inherited.Climb "Square" 1 "Form" := .up .here (by decide)
  have hm : Table.inherited.method "Square" "AREA" =
    .ok ⟨.ofInterface ⟨"Shape", [], [], [⟨"Area", [], none⟩]⟩, ⟨"Area", [], none⟩⟩ := rfl
  obtain ⟨-, hnear, -⟩ := method_nearest _ hcheck _ _ _ hm
  exact ⟨hcheck, hdecl, by decide, ⟨_, hm, rfl, hnear "Base" 2 (.up hform (by decide)) hdecl⟩,
    ⟨_, rfl, rfl⟩⟩

/-- a class that implements an interface and one that extends it finds the method in the first, also
where the second declares it lower in the hierarchy -/
theorem lower_declaration_passed_over :
    Table.polygons.check = .ok () ∧
    (∃ m, Table.polygons.method "Square" "area" = .ok m ∧ m.owner.name = "Shape") ∧
    Relation.ReflTransGen Table.polygons.Edge "Square" "Polygon" ∧
    Table.polygons.isBelow "Polygon" "Shape" = true ∧ Table.polygons.Declares "Polygon" "area" :=
  ⟨by decide, ⟨_, rfl, rfl⟩, .single (by decide), by decide, by unfold Table.Declares; decide⟩

end TypeHint
