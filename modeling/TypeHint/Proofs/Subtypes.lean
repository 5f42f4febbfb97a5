import TypeHint.Proofs.Ancestors

/-!
# Subtypes are what declarations lead to

A table answers whether one name is below another by a search upwards with a queue.  Names may be
queued more than once and the queue may grow, but the search ends by itself, also where supertypes
are missing or a type is its own ancestor (`search_finds`).

* `Table.Edge t a b`        a declaration of `a` in the table names `b` as a direct supertype
* `Table.step_iff_edge`     the search goes along these edges
* `Table.Search`            the rounds of the search, one rule each
* `isBelow_iff_edges`       below is reached by edges, and a strict order in a checked table
-/

namespace TypeHint

namespace Table

variable {t : Table} {a b c n : String}

/-! ## declarations -/

theorem eq_of_name_eq {s u : Symbol} (hs : s ∈ t.symbols) (hu : u ∈ t.symbols)
    (e : s.name = u.name) : s = u :=
  List.inj_on_of_nodup_map t.nodup hs hu e

theorem find?_eq_some_iff {s : Symbol} : t.find? n = some s ↔ s ∈ t.symbols ∧ s.name = n := by
  unfold find?
  constructor
  · intro h
    exact ⟨List.mem_of_find?_eq_some h, by simpa using List.find?_some h⟩
  · rintro ⟨hs, rfl⟩
    cases e : t.symbols.find? (·.name == s.name) with
    | none => exact absurd (List.find?_eq_none.mp e s hs) (by simp)
    | some u =>
      have hu : u.name = s.name := by simpa using List.find?_some e
      rw [eq_of_name_eq (List.mem_of_find?_eq_some e) hs hu]

theorem mem_classes {c : Class} : c ∈ t.classes ↔ .ofClass c ∈ t.symbols := by
  rw [classes, List.mem_filterMap]
  constructor
  · rintro ⟨s, hs, e⟩
    cases s <;> cases e
    exact hs
  · exact fun h => ⟨_, h, rfl⟩

theorem mem_interfaces {i : Interface} : i ∈ t.interfaces ↔ .ofInterface i ∈ t.symbols := by
  rw [interfaces, List.mem_filterMap]
  constructor
  · rintro ⟨s, hs, e⟩
    cases s <;> cases e
    exact hs
  · exact fun h => ⟨_, h, rfl⟩

theorem isClass_iff : t.isClass n = true ↔ n ∈ t.classes.map Class.name := by
  simp only [isClass, findClass?, List.mem_map, mem_classes, Option.isSome_iff_exists,
    Option.bind_eq_some_iff, find?_eq_some_iff]
  constructor
  · rintro ⟨c, s, ⟨hs, hn⟩, e⟩
    cases s <;> cases e
    exact ⟨c, hs, hn⟩
  · rintro ⟨c, hc, hn⟩
    exact ⟨c, .ofClass c, ⟨hc, hn⟩, rfl⟩

theorem isInterface_iff : t.isInterface n = true ↔ n ∈ t.interfaces.map Interface.name := by
  simp only [isInterface, List.mem_map, mem_interfaces, Option.isSome_iff_exists,
    Option.bind_eq_some_iff, find?_eq_some_iff]
  constructor
  · rintro ⟨i, s, ⟨hs, hn⟩, e⟩
    cases s <;> cases e
    exact ⟨i, hs, hn⟩
  · rintro ⟨i, hi, hn⟩
    exact ⟨i, .ofInterface i, ⟨hi, hn⟩, rfl⟩

theorem isClass_or_isInterface (hn : n ∈ t.names) :
    t.isClass n = true ∨ t.isInterface n = true := by
  obtain ⟨s, hs, rfl⟩ := List.mem_map.mp hn
  cases s with
  | ofClass c => exact Or.inl (isClass_iff.mpr (List.mem_map_of_mem (mem_classes.mpr hs)))
  | ofInterface i =>
    exact Or.inr (isInterface_iff.mpr (List.mem_map_of_mem (mem_interfaces.mpr hs)))

/-- the declaration of a name gives another name as a direct supertype -/
inductive Edge (t : Table) : String → String → Prop
  | parent {c : Class} {b : String} : c ∈ t.classes → c.parent = some b → Edge t c.name b
  | implemented {c : Class} {b : String} : c ∈ t.classes → b ∈ c.interfaces → Edge t c.name b
  | extended {i : Interface} {b : String} : i ∈ t.interfaces → b ∈ i.parents → Edge t i.name b

theorem step_iff : t.Step a b ↔ ∃ s ∈ t.symbols, s.name = a ∧ b ∈ s.supertypes := by
  unfold Step parents
  cases e : t.find? a with
  | none =>
    refine ⟨fun h => (by cases h), ?_⟩
    rintro ⟨s, hs, hn, -⟩
    rw [find?_eq_some_iff.mpr ⟨hs, hn⟩] at e
    cases e
  | some s =>
    obtain ⟨hs, hn⟩ := find?_eq_some_iff.mp e
    refine ⟨fun h => ⟨s, hs, hn, h⟩, ?_⟩
    rintro ⟨u, hu, hun, hb⟩
    rw [eq_of_name_eq hs hu (hn.trans hun.symm)]
    exact hb

theorem step_iff_edge : t.Step a b ↔ t.Edge a b := by
  rw [step_iff]
  constructor
  · rintro ⟨s, hs, rfl, hb⟩
    cases s with
    | ofClass c =>
      rcases List.mem_append.mp hb with hb | hb
      · exact .parent (mem_classes.mpr hs) (Option.mem_toList.mp hb)
      · exact .implemented (mem_classes.mpr hs) hb
    | ofInterface i => exact .extended (mem_interfaces.mpr hs) hb
  · intro h
    cases h with
    | parent hc hb =>
      exact ⟨_, mem_classes.mp hc, rfl, List.mem_append_left _ (Option.mem_toList.mpr hb)⟩
    | implemented hc hb => exact ⟨_, mem_classes.mp hc, rfl, List.mem_append_right _ hb⟩
    | extended hi hb => exact ⟨_, mem_interfaces.mp hi, rfl, hb⟩

instance (t : Table) : DecidableRel t.Edge := fun a b =>
  decidable_of_iff (b ∈ t.parents a) step_iff_edge

theorem reaches_iff_edges : t.Reaches a b ↔ Relation.TransGen t.Edge a b := by
  have hstep : t.Step = t.Edge := by
    funext a b
    exact propext step_iff_edge
  rw [Reaches, hstep]

/-! ## the search ends -/

/-- a run of the search for `target` from the given seen names and queue: how many names it takes
from the queue, and its answer -/
inductive Search (t : Table) (target : String) : Nat → List String → List String → Bool → Prop
  | exhausted {seen : List String} : Search t target 0 seen [] false
  | found {seen queue : List String} : Search t target 1 seen (target :: queue) true
  | old {n : Nat} {next : String} {seen queue : List String} {r : Bool} : next ≠ target →
      next ∈ seen → Search t target n seen queue r → Search t target (n + 1) seen (next :: queue) r
  | new {n : Nat} {next : String} {seen queue : List String} {r : Bool} : next ≠ target →
      next ∉ seen → Search t target n (next :: seen) (queue ++ t.parents next) r →
      Search t target (n + 1) seen (next :: queue) r

/-- the queue may grow, but every symbol puts its supertypes there once -/
theorem search_finds (t : Table) (target : String) (seen queue : List String) :
    ∃ n ≤ queue.length + declaredOutside seen t.symbols,
      t.Search target n seen queue (t.finds target seen queue) := by
  fun_induction finds t target seen queue with
  | case1 seen => exact ⟨0, Nat.zero_le _, .exhausted⟩
  | case2 seen queue => exact ⟨1, by rw [List.length_cons]; omega, .found⟩
  | case3 seen next queue hne hold ih =>
    obtain ⟨n, hn, hrun⟩ := ih
    exact ⟨n + 1, by rw [List.length_cons]; omega, .old hne hold hrun⟩
  | case4 seen next queue hne hnew ih =>
    obtain ⟨n, hn, hrun⟩ := ih
    have hle := length_parents_add_declaredOutside_le (t := t) hnew
    rw [List.length_append] at hn
    exact ⟨n + 1, by rw [List.length_cons]; omega, .new hne hnew hrun⟩

theorem Search.answer {target : String} {k : Nat} {seen queue : List String} {r : Bool}
    (h : t.Search target k seen queue r) : r = t.finds target seen queue := by
  induction h with
  | exhausted => rw [finds]
  | found => rw [finds, if_pos rfl]
  | old hne hold _ ih => rw [finds, if_neg hne, if_pos hold, ih]
  | new hne hnew _ ih => rw [finds, if_neg hne, if_neg hnew, ih]

/-! ## a strict order -/

theorem isBelow_self (t : Table) (a : String) : t.isBelow a a = false := by
  rw [Bool.eq_false_iff]
  exact fun h => (isBelow_iff.mp h).1 rfl

theorem isBelow_trans (hcheck : t.check = .ok ()) (hab : t.isBelow a b = true)
    (hbc : t.isBelow b c = true) : t.isBelow a c = true := by
  have hac : t.Reaches a c := (isBelow_iff.mp hab).2.trans (isBelow_iff.mp hbc).2
  refine isBelow_iff.mpr ⟨?_, hac⟩
  rintro rfl
  exact not_reaches_self_of_check hcheck hac

/-- two classes, each of them the parent of the other, and an interface that is not registered -/
def ring : Table where
  symbols := [.ofClass ⟨"Left", some "Right", ["Missing"], false, [], [], []⟩,
    .ofClass ⟨"Right", some "Left", [], false, [], [], []⟩]
  nodup := by decide

end Table

/-- **Subtype queries compute reachability.**  In every table, checked or not, the search for one
name from another ends, after at most as many rounds as the name and all symbols together declare
supertypes, and its one answer is that of the query.  A name is below another exactly if it is
another one and reached by one or more edges.  In a checked table this is a strict order. -/
theorem isBelow_iff_edges (t : Table) :
    (∀ a b,
      (∃ n ≤ (t.parents a).length + Table.declaredOutside [] t.symbols,
        t.Search b n [] (t.parents a) (t.hasAncestor a b)) ∧
      ∀ n r, t.Search b n [] (t.parents a) r → r = t.hasAncestor a b) ∧
    (∀ a b, t.isBelow a b = true ↔ a ≠ b ∧ Relation.TransGen t.Edge a b) ∧
    (t.check = .ok () →
      (∀ a, t.isBelow a a = false) ∧
      (∀ a b c, t.isBelow a b = true → t.isBelow b c = true → t.isBelow a c = true) ∧
      ∀ a b, t.isBelow a b = true → t.isBelow b a = false) := by
  refine ⟨fun a b => ⟨t.search_finds b [] (t.parents a), fun n r h => h.answer⟩, ?_, ?_⟩
  · intro a b
    rw [Table.isBelow_iff, Table.reaches_iff_edges]
  · intro hcheck
    exact ⟨t.isBelow_self, fun a b c => Table.isBelow_trans hcheck, Table.acyclic_of_check hcheck⟩

/-- A class two edges below an interface in a checked table, and a cycle with a dangling edge in one
that is not checked.  There a search for an unknown name ends within five rounds. -/
theorem isBelow_iff_edges_of_cycle :
    (Table.handlers.check = .ok () ∧ Table.handlers.isBelow "Leaf" "Handler" = true ∧
      Table.handlers.isBelow "Handler" "Leaf" = false) ∧
    (∃ n ≤ 5, Table.ring.Search "Unknown" n [] ["Right", "Missing"] false) ∧
    Table.ring.isBelow "Left" "Right" = true ∧ Table.ring.isBelow "Right" "Left" = true ∧
    Table.ring.isBelow "Left" "Left" = false ∧ Table.ring.isBelow "Right" "Missing" = true := by
  obtain ⟨-, hbelow, horder⟩ := isBelow_iff_edges Table.handlers
  obtain ⟨hsearch, hring, -⟩ := isBelow_iff_edges Table.ring
  have hcheck : Table.handlers.check = .ok () := by decide
  have hleaf : Table.handlers.isBelow "Leaf" "Handler" = true := by
    have hbase : Table.handlers.Edge "Leaf" "Base" := by decide
    have hhandler : Table.handlers.Edge "Base" "Handler" := by decide
    exact (hbelow _ _).mpr ⟨by decide, .tail (.single hbase) hhandler⟩
  have hright : Table.ring.Edge "Left" "Right" := by decide
  have hleft : Table.ring.Edge "Right" "Left" := by decide
  have hmissing : Table.ring.Edge "Left" "Missing" := by decide
  have hunknown : Table.ring.hasAncestor "Left" "Unknown" = false := by decide
  refine ⟨⟨hcheck, hleaf, (horder hcheck).2.2 _ _ hleaf⟩, ?_, ?_, ?_, ?_, ?_⟩
  · exact hunknown ▸ (hsearch "Left" "Unknown").1
  · exact (hring _ _).mpr ⟨by decide, .single hright⟩
  · exact (hring _ _).mpr ⟨by decide, .single hleft⟩
  · exact Bool.eq_false_iff.mpr fun h => ((hring _ _).mp h).1 rfl
  · exact (hring _ _).mpr ⟨by decide, .tail (.single hleft) hmissing⟩

end TypeHint
