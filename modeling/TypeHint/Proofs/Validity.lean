import TypeHint.Proofs.ByteOrder
import TypeHint.Proofs.Subtypes

/-!
# What the check of a table reports

The check goes through the classes, the interfaces and then all names, each in the order of the
names, and reports the first fault.  Which one that is depends only on the declarations, not on the
order in which they were registered.

* `Table.ClassSound`, `Table.InterfaceSound`   every direct supertype is registered as what it must be
* `Table.Reports t e`                `e` is the fault that comes first
* `Table.findSome?_sortBy_iff`       the first answer along sorted names is that of the least name
* `check_reports_first_fault`        the check succeeds on sound tables without cycles, and else reports
                                     the first fault
-/

namespace TypeHint

namespace Table

variable {t u : Table} {n : String} {e : SymbolError}

/-! ## sound declarations -/

structure ClassSound (t : Table) (c : Class) : Prop where
  parent : ∀ p, c.parent = some p → p ∈ t.classes.map Class.name
  interfaces : ∀ i ∈ c.interfaces, i ∈ t.interfaces.map Interface.name

def InterfaceSound (t : Table) (i : Interface) : Prop :=
  ∀ p ∈ i.parents, p ∈ t.interfaces.map Interface.name

/-- the fault that comes first; names are compared by their bytes -/
inductive Reports (t : Table) : SymbolError → Prop
  | parent {c : Class} {p : String} (hc : c ∈ t.classes)
      (least : ∀ d ∈ t.classes, ¬ t.ClassSound d → utf8 c.name ≤ utf8 d.name)
      (hp : c.parent = some p) (missing : p ∉ t.classes.map Class.name) :
      Reports t (.missingSupertype c.name p .class)
  | implemented {c : Class} {n : String} {front back : List String} (hc : c ∈ t.classes)
      (least : ∀ d ∈ t.classes, ¬ t.ClassSound d → utf8 c.name ≤ utf8 d.name)
      (hp : ∀ p, c.parent = some p → p ∈ t.classes.map Class.name)
      (hi : c.interfaces = front ++ n :: back)
      (first : ∀ i ∈ front, i ∈ t.interfaces.map Interface.name)
      (missing : n ∉ t.interfaces.map Interface.name) :
      Reports t (.missingSupertype c.name n .interface)
  | extended {i : Interface} {n : String} {front back : List String}
      (classes : ∀ c ∈ t.classes, t.ClassSound c) (hi : i ∈ t.interfaces)
      (least : ∀ j ∈ t.interfaces, ¬ t.InterfaceSound j → utf8 i.name ≤ utf8 j.name)
      (hp : i.parents = front ++ n :: back)
      (first : ∀ p ∈ front, p ∈ t.interfaces.map Interface.name)
      (missing : n ∉ t.interfaces.map Interface.name) :
      Reports t (.missingSupertype i.name n .interface)
  | cyclic {n : String} (classes : ∀ c ∈ t.classes, t.ClassSound c)
      (interfaces : ∀ i ∈ t.interfaces, t.InterfaceSound i)
      (cycle : Relation.TransGen t.Edge n n)
      (least : ∀ m, Relation.TransGen t.Edge m m → utf8 n ≤ utf8 m) : Reports t (.cyclic n)

/-! ## the first along sorted names -/

section

variable {α β : Type} {name : α → String} {xs : List α} {f : α → Option β} {b : β}

theorem byName_eq_false_iff {x y : α} : byName name y x = false ↔ name x ≤ name y := by
  rw [byName, decide_eq_false_iff_not, String.not_lt]

theorem sortBy_byName_pairwise (name : α → String) (xs : List α) :
    (sortBy (byName name) xs).Pairwise fun x y => name x ≤ name y := by
  refine (sortBy_pairwise ?_ ?_ xs).imp byName_eq_false_iff.mp
  · intro x y
    rw [byName_eq_false_iff, byName_eq_false_iff]
    exact String.le_total _ _
  · intro x y z hxy hyz
    rw [byName_eq_false_iff] at *
    exact String.le_trans hxy hyz

/-- an answer that is found first is that of the least name that has one -/
theorem least_of_findSome?_sortBy (hf : (sortBy (byName name) xs).findSome? f = some b) :
    ∃ x ∈ xs, f x = some b ∧ ∀ y ∈ xs, f y ≠ none → utf8 (name x) ≤ utf8 (name y) := by
  obtain ⟨front, x, back, hsplit, hx, hfront⟩ := List.findSome?_eq_some_iff.mp hf
  have hmem : ∀ y, y ∈ xs ↔ y ∈ front ++ x :: back := fun y => by rw [← hsplit, mem_sortBy]
  have hsorted := sortBy_byName_pairwise name xs
  rw [hsplit, List.pairwise_append, List.pairwise_cons] at hsorted
  refine ⟨x, (hmem x).mpr (by simp), hx, fun y hy hfy => utf8_le_iff.mpr ?_⟩
  rcases List.mem_append.mp ((hmem y).mp hy) with hy | hy
  · exact absurd (hfront y hy) hfy
  · rcases List.mem_cons.mp hy with rfl | hy
    · exact String.le_refl _
    · exact hsorted.2.1.1 y hy

theorem findSome?_sortBy_iff (hnd : (xs.map name).Nodup) :
    (sortBy (byName name) xs).findSome? f = some b ↔
      ∃ x ∈ xs, f x = some b ∧ ∀ y ∈ xs, f y ≠ none → utf8 (name x) ≤ utf8 (name y) := by
  refine ⟨least_of_findSome?_sortBy, ?_⟩
  rintro ⟨x, hx, hfx, hleast⟩
  cases e : (sortBy (byName name) xs).findSome? f with
  | none =>
    rw [List.findSome?_eq_none_iff.mp e x (mem_sortBy.mpr hx)] at hfx
    cases hfx
  | some b' =>
    obtain ⟨z, hz, hfz, hleast'⟩ := least_of_findSome?_sortBy e
    -- both are least, and names are distinct
    have hxz := utf8_le_iff.mp (hleast z hz (by simp [hfz]))
    have hzx := utf8_le_iff.mp (hleast' x hx (by simp [hfx]))
    rw [List.inj_on_of_nodup_map hnd hx hz (String.le_antisymm hxz hzx), hfz] at hfx
    exact hfx

theorem findSome?_sortBy_eq_none_iff :
    (sortBy (byName name) xs).findSome? f = none ↔ ∀ x ∈ xs, f x = none := by
  simp [List.findSome?_eq_none_iff]

end

/-! ## faults of one declaration -/

theorem head?_missing_iff {registered : String → Bool} {names : List String}
    {fault : String → SymbolError} :
    ((names.filter (!registered ·)).map fault).head? = some e ↔
      ∃ front n back, names = front ++ n :: back ∧ (∀ i ∈ front, registered i = true) ∧
        registered n = false ∧ e = fault n := by
  rw [List.head?_map, List.head?_filter, Option.map_eq_some_iff]
  constructor
  · rintro ⟨n, hn, rfl⟩
    obtain ⟨hbad, front, back, hsplit, hfront⟩ := List.find?_eq_some_iff_append.mp hn
    exact ⟨front, n, back, hsplit, by simpa using hfront, by simpa using hbad, rfl⟩
  · rintro ⟨front, n, back, hsplit, hfront, hbad, rfl⟩
    exact ⟨n, List.find?_eq_some_iff_append.mpr
      ⟨by simpa using hbad, front, back, hsplit, by simpa using hfront⟩, rfl⟩

theorem isClass_eq_false_iff : t.isClass n = false ↔ n ∉ t.classes.map Class.name := by
  rw [← isClass_iff, Bool.not_eq_true]

theorem isInterface_eq_false_iff : t.isInterface n = false ↔ n ∉ t.interfaces.map Interface.name := by
  rw [← isInterface_iff, Bool.not_eq_true]

theorem classFaults_eq_nil_iff {c : Class} : t.classFaults c = [] ↔ t.ClassSound c := by
  simp only [classFaults, List.append_eq_nil_iff, List.map_eq_nil_iff, List.filter_eq_nil_iff,
    Bool.not_eq_true', Bool.not_eq_false, isClass_iff, isInterface_iff, Option.mem_toList]
  exact ⟨fun h => ⟨h.1, h.2⟩, fun h => ⟨h.parent, h.interfaces⟩⟩

theorem interfaceFaults_eq_nil_iff {i : Interface} :
    t.interfaceFaults i = [] ↔ t.InterfaceSound i := by
  simp only [interfaceFaults, List.map_eq_nil_iff, List.filter_eq_nil_iff, Bool.not_eq_true',
    Bool.not_eq_false, isInterface_iff, InterfaceSound]

/-- the parent counts before the interfaces, and these in the order of their declaration -/
theorem head?_classFaults_iff {c : Class} : (t.classFaults c).head? = some e ↔
    (∃ p, c.parent = some p ∧ p ∉ t.classes.map Class.name ∧
      e = .missingSupertype c.name p .class) ∨
    (∀ p, c.parent = some p → p ∈ t.classes.map Class.name) ∧
      ∃ front n back, c.interfaces = front ++ n :: back ∧
        (∀ i ∈ front, i ∈ t.interfaces.map Interface.name) ∧
        n ∉ t.interfaces.map Interface.name ∧ e = .missingSupertype c.name n .interface := by
  simp only [classFaults, List.head?_append, Option.or_eq_some_iff, head?_missing_iff,
    List.head?_eq_none_iff, List.map_eq_nil_iff, List.filter_eq_nil_iff, Bool.not_eq_true',
    Option.mem_toList, isInterface_iff, isClass_eq_false_iff, isInterface_eq_false_iff, not_not]
  refine or_congr ?_ Iff.rfl
  constructor
  · rintro ⟨front, p, back, hsplit, -, hbad, rfl⟩
    exact ⟨p, Option.mem_toList.mp (hsplit ▸ by simp), hbad, rfl⟩
  · rintro ⟨p, hp, hbad, rfl⟩
    exact ⟨[], p, [], by rw [hp]; rfl, by simp, hbad, rfl⟩

theorem head?_interfaceFaults_iff {i : Interface} : (t.interfaceFaults i).head? = some e ↔
    ∃ front n back, i.parents = front ++ n :: back ∧
      (∀ p ∈ front, p ∈ t.interfaces.map Interface.name) ∧
      n ∉ t.interfaces.map Interface.name ∧ e = .missingSupertype i.name n .interface := by
  simp only [interfaceFaults, head?_missing_iff, isInterface_iff, isInterface_eq_false_iff]

theorem head?_classFaults_eq_none_iff {c : Class} :
    (t.classFaults c).head? = none ↔ t.ClassSound c := by
  rw [List.head?_eq_none_iff, classFaults_eq_nil_iff]

theorem head?_interfaceFaults_eq_none_iff {i : Interface} :
    (t.interfaceFaults i).head? = none ↔ t.InterfaceSound i := by
  rw [List.head?_eq_none_iff, interfaceFaults_eq_nil_iff]

/-! ## the three passes -/

theorem nodup_classes (t : Table) : (t.classes.map Class.name).Nodup := by
  rw [classes, List.Nodup, List.pairwise_map, List.pairwise_filterMap]
  refine (List.pairwise_map.mp t.nodup).imp fun {s u} hne c hc d hd => ?_
  cases s <;> cases hc
  cases u <;> cases hd
  exact hne

theorem nodup_interfaces (t : Table) : (t.interfaces.map Interface.name).Nodup := by
  rw [interfaces, List.Nodup, List.pairwise_map, List.pairwise_filterMap]
  refine (List.pairwise_map.mp t.nodup).imp fun {s u} hne i hi j hj => ?_
  cases s <;> cases hi
  cases u <;> cases hj
  exact hne

def firstClassFault (t : Table) : Option SymbolError :=
  (sortBy (byName Class.name) t.classes).findSome? fun c => (t.classFaults c).head?

def firstInterfaceFault (t : Table) : Option SymbolError :=
  (sortBy (byName Interface.name) t.interfaces).findSome? fun i => (t.interfaceFaults i).head?

def firstOnCycle (t : Table) : Option String :=
  (sortBy (byName id) t.names).findSome? (Option.guard fun n => t.hasAncestor n n)

theorem head?_faults (t : Table) : t.faults.head? =
    (t.firstClassFault.or t.firstInterfaceFault).or (t.firstOnCycle.map .cyclic) := by
  rw [faults, List.head?_append, List.head?_append, List.head?_flatMap, List.head?_flatMap,
    List.head?_map, List.head?_filter, List.find?_eq_findSome?_guard]
  rfl

theorem firstClassFault_eq_none_iff :
    t.firstClassFault = none ↔ ∀ c ∈ t.classes, t.ClassSound c := by
  simp only [firstClassFault, findSome?_sortBy_eq_none_iff, head?_classFaults_eq_none_iff]

theorem firstInterfaceFault_eq_none_iff :
    t.firstInterfaceFault = none ↔ ∀ i ∈ t.interfaces, t.InterfaceSound i := by
  simp only [firstInterfaceFault, findSome?_sortBy_eq_none_iff, head?_interfaceFaults_eq_none_iff]

theorem firstClassFault_eq_some_iff : t.firstClassFault = some e ↔
    ∃ c ∈ t.classes, (t.classFaults c).head? = some e ∧
      ∀ d ∈ t.classes, ¬ t.ClassSound d → utf8 c.name ≤ utf8 d.name := by
  simp only [firstClassFault, findSome?_sortBy_iff t.nodup_classes, ne_eq,
    head?_classFaults_eq_none_iff]

theorem firstInterfaceFault_eq_some_iff : t.firstInterfaceFault = some e ↔
    ∃ i ∈ t.interfaces, (t.interfaceFaults i).head? = some e ∧
      ∀ j ∈ t.interfaces, ¬ t.InterfaceSound j → utf8 i.name ≤ utf8 j.name := by
  simp only [firstInterfaceFault, findSome?_sortBy_iff t.nodup_interfaces, ne_eq,
    head?_interfaceFaults_eq_none_iff]

theorem hasAncestor_self_iff : t.hasAncestor n n = true ↔ Relation.TransGen t.Edge n n := by
  rw [hasAncestor_iff, reaches_iff_edges]

theorem mem_names_of_cycle (h : Relation.TransGen t.Edge n n) : n ∈ t.names :=
  mem_names_of_reaches (reaches_iff_edges.mpr h)

theorem firstOnCycle_eq_none_iff :
    t.firstOnCycle = none ↔ ∀ n, ¬ Relation.TransGen t.Edge n n := by
  simp only [firstOnCycle, findSome?_sortBy_eq_none_iff, Option.guard_eq_none_iff,
    ← Bool.not_eq_true, hasAncestor_self_iff]
  exact ⟨fun h n hn => h n (mem_names_of_cycle hn) hn, fun h n _ => h n⟩

theorem firstOnCycle_eq_some_iff : t.firstOnCycle = some n ↔
    Relation.TransGen t.Edge n n ∧ ∀ m, Relation.TransGen t.Edge m m → utf8 n ≤ utf8 m := by
  rw [firstOnCycle, findSome?_sortBy_iff (by rw [List.map_id]; exact t.nodup)]
  simp only [Option.guard_eq_some_iff, ne_eq, Option.guard_eq_none_iff, Bool.not_eq_false,
    hasAncestor_self_iff, id]
  constructor
  · rintro ⟨m, -, ⟨rfl, hcycle⟩, hleast⟩
    exact ⟨hcycle, fun k hk => hleast k (mem_names_of_cycle hk) hk⟩
  · rintro ⟨hcycle, hleast⟩
    exact ⟨n, mem_names_of_cycle hcycle, ⟨rfl, hcycle⟩, fun m _ hm => hleast m hm⟩

theorem check_eq_ok_iff : t.check = .ok () ↔ t.faults.head? = none := by
  unfold check
  cases t.faults <;> simp

theorem check_eq_error_iff : t.check = .error e ↔ t.faults.head? = some e := by
  unfold check
  cases t.faults <;> simp

theorem head?_faults_eq_some_iff : t.faults.head? = some e ↔ t.Reports e := by
  simp only [head?_faults, Option.or_eq_some_iff, Option.or_eq_none_iff, Option.map_eq_some_iff,
    firstClassFault_eq_none_iff, firstInterfaceFault_eq_none_iff, firstClassFault_eq_some_iff,
    firstInterfaceFault_eq_some_iff, firstOnCycle_eq_some_iff, head?_classFaults_iff,
    head?_interfaceFaults_iff]
  constructor
  · rintro ((⟨c, hc, hfault, hleast⟩ | ⟨hcs, i, hi, ⟨front, n, back, hp, hfirst, hbad, rfl⟩, hleast⟩) |
      ⟨⟨hcs, his⟩, n, ⟨hcycle, hleast⟩, rfl⟩)
    · obtain ⟨p, hp, hbad, rfl⟩ | ⟨hp, front, n, back, hi, hfirst, hbad, rfl⟩ := hfault
      · exact .parent hc hleast hp hbad
      · exact .implemented hc hleast hp hi hfirst hbad
    · exact .extended hcs hi hleast hp hfirst hbad
    · exact .cyclic hcs his hcycle hleast
  · intro h
    cases h with
    | parent hc hleast hp hbad =>
      exact Or.inl (Or.inl ⟨_, hc, Or.inl ⟨_, hp, hbad, rfl⟩, hleast⟩)
    | implemented hc hleast hp hi hfirst hbad =>
      exact Or.inl (Or.inl ⟨_, hc, Or.inr ⟨hp, _, _, _, hi, hfirst, hbad, rfl⟩, hleast⟩)
    | extended hcs hi hleast hp hfirst hbad =>
      exact Or.inl (Or.inr ⟨hcs, _, hi, ⟨_, _, _, hp, hfirst, hbad, rfl⟩, hleast⟩)
    | cyclic hcs his hcycle hleast => exact Or.inr ⟨⟨hcs, his⟩, _, ⟨hcycle, hleast⟩, rfl⟩

theorem check_eq_ok_iff_sound : t.check = .ok () ↔ (∀ c ∈ t.classes, t.ClassSound c) ∧
    (∀ i ∈ t.interfaces, t.InterfaceSound i) ∧ ∀ n, ¬ Relation.TransGen t.Edge n n := by
  rw [check_eq_ok_iff, head?_faults, Option.or_eq_none_iff, Option.or_eq_none_iff,
    Option.map_eq_none_iff, firstClassFault_eq_none_iff, firstInterfaceFault_eq_none_iff,
    firstOnCycle_eq_none_iff, and_assoc]

/-! ## the order of registration -/

section

variable (hmem : ∀ s, s ∈ u.symbols ↔ s ∈ t.symbols)
include hmem

theorem mem_classNames_congr : n ∈ u.classes.map Class.name ↔ n ∈ t.classes.map Class.name := by
  simp only [List.mem_map, mem_classes, hmem]

theorem mem_interfaceNames_congr :
    n ∈ u.interfaces.map Interface.name ↔ n ∈ t.interfaces.map Interface.name := by
  simp only [List.mem_map, mem_interfaces, hmem]

theorem classSound_congr (c : Class) : u.ClassSound c ↔ t.ClassSound c := by
  constructor
  · intro h
    exact ⟨fun p hp => (mem_classNames_congr hmem).mp (h.parent p hp),
      fun i hi => (mem_interfaceNames_congr hmem).mp (h.interfaces i hi)⟩
  · intro h
    exact ⟨fun p hp => (mem_classNames_congr hmem).mpr (h.parent p hp),
      fun i hi => (mem_interfaceNames_congr hmem).mpr (h.interfaces i hi)⟩

theorem interfaceSound_congr (i : Interface) : u.InterfaceSound i ↔ t.InterfaceSound i := by
  simp only [InterfaceSound, mem_interfaceNames_congr hmem]

theorem edge_congr : u.Edge = t.Edge := by
  funext a b
  rw [eq_iff_iff, ← step_iff_edge, ← step_iff_edge, step_iff, step_iff]
  simp only [hmem]

theorem reports_congr : u.Reports e ↔ t.Reports e := by
  have hclass : ∀ c, c ∈ u.classes ↔ c ∈ t.classes := fun c => by
    rw [mem_classes, mem_classes, hmem]
  have hiface : ∀ i, i ∈ u.interfaces ↔ i ∈ t.interfaces := fun i => by
    rw [mem_interfaces, mem_interfaces, hmem]
  simp only [← head?_faults_eq_some_iff, head?_faults, Option.or_eq_some_iff,
    Option.or_eq_none_iff, Option.map_eq_some_iff, firstClassFault_eq_none_iff,
    firstInterfaceFault_eq_none_iff, firstClassFault_eq_some_iff, firstInterfaceFault_eq_some_iff,
    firstOnCycle_eq_some_iff, head?_classFaults_iff, head?_interfaceFaults_iff, hclass, hiface,
    classSound_congr hmem, interfaceSound_congr hmem, mem_classNames_congr hmem,
    mem_interfaceNames_congr hmem, edge_congr hmem]

end

theorem check_congr (hmem : ∀ s, s ∈ u.symbols ↔ s ∈ t.symbols) : u.check = t.check := by
  have herror : ∀ e, u.check = .error e ↔ t.check = .error e := fun e => by
    rw [check_eq_error_iff, check_eq_error_iff, head?_faults_eq_some_iff,
      head?_faults_eq_some_iff, reports_congr hmem]
  cases ht : t.check with
  | error e => exact (herror e).mpr ht
  | ok =>
    cases hu : u.check with
    | error e =>
      rw [(herror e).mp hu] at ht
      cases ht
    | ok => rfl

/-- several faults: the interfaces are faulty too, and the class that was registered last has the
least name; its parent and its first interface are registered -/
def tangled : Table where
  symbols := [.ofInterface ⟨"Able", ["Missing"], [], []⟩,
    .ofClass ⟨"Zone", some "Missing", [], false, [], [], []⟩,
    .ofClass ⟨"Unit", some "Zone", ["Able", "Zone", "Missing"], false, [], [], []⟩]
  nodup := by decide

/-- a class that inherits from a cycle without lying on it -/
def outsideCycle : Table where
  symbols := [.ofClass ⟨"Aside", some "Inner", [], false, [], [], []⟩,
    .ofClass ⟨"Outer", some "Inner", [], false, [], [], []⟩,
    .ofClass ⟨"Inner", some "Outer", [], false, [], [], []⟩]
  nodup := by decide

end Table

/-- **What the check of a table reports.**  A table passes exactly if every parent is a registered
class, everything implemented or extended is a registered interface, and no name lies on a cycle of
edges.  Else the check reports the first fault, whatever the order of registration. -/
theorem check_reports_first_fault (t : Table) :
    (t.check = .ok () ↔ (∀ c ∈ t.classes, t.ClassSound c) ∧
      (∀ i ∈ t.interfaces, t.InterfaceSound i) ∧ ∀ n, ¬ Relation.TransGen t.Edge n n) ∧
    (∀ e, t.check = .error e ↔ t.Reports e) ∧
    ∀ u : Table, u.symbols.Perm t.symbols → u.check = t.check := by
  refine ⟨Table.check_eq_ok_iff_sound, ?_, ?_⟩
  · intro e
    rw [Table.check_eq_error_iff, Table.head?_faults_eq_some_iff]
  · intro u hperm
    exact Table.check_congr fun s => hperm.mem_iff

/-- the class with the least name is reported with the second interface that it implements, although
the table has other faults, and in the other order too; and a type that only inherits from a cycle
is not reported -/
theorem check_reports_first_fault_of_tangled :
    Table.tangled.check = .error (.missingSupertype "Unit" "Zone" .interface) ∧
    (∀ u : Table, u.symbols = Table.tangled.symbols.reverse → u.check = Table.tangled.check) ∧
    Table.outsideCycle.check = .error (.cyclic "Inner") ∧
    Relation.TransGen Table.outsideCycle.Edge "Inner" "Inner" ∧
    ¬ Relation.TransGen Table.outsideCycle.Edge "Aside" "Aside" := by
  obtain ⟨-, hreport, hperm⟩ := check_reports_first_fault Table.tangled
  obtain ⟨-, hcycle, -⟩ := check_reports_first_fault Table.outsideCycle
  have hinner : Table.outsideCycle.check = .error (.cyclic "Inner") := by decide
  have hleast : ∀ d ∈ Table.tangled.classes, utf8 "Unit" ≤ utf8 d.name := by
    simp only [utf8_le_iff]
    decide
  refine ⟨(hreport _).mpr ?_, ?_, hinner, ?_, ?_⟩
  · exact .implemented (c := ⟨"Unit", some "Zone", ["Able", "Zone", "Missing"], false, [], [], []⟩)
      (by decide) (fun d hd _ => hleast d hd) (by simp; decide)
      (show _ = ["Able"] ++ "Zone" :: ["Missing"] from rfl) (by decide) (by decide)
  · rintro u hu
    exact hperm u (hu ▸ List.reverse_perm _)
  · cases (hcycle _).mp hinner with
    | cyclic _ _ h _ => exact h
  · cases (hcycle _).mp hinner with
    | cyclic _ _ _ hleast =>
      intro h
      have := utf8_le_iff.mp (hleast _ h)
      revert this
      decide

end TypeHint
