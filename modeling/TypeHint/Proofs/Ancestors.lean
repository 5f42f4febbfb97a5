import Mathlib.Logic.Relation
import TypeHint.Proofs.Order
import TypeHint.Symbol.Members

/-!
# Ancestors are what supertype edges reach

A table has two searches upwards, each with a queue and a set of seen names.  `Table.hasAncestor`
stops at the name that it looks for and may pass its start again, `Table.properAncestors` lists what
it meets and never goes on from its start.  Both find what is reached in every table, also in one
with dangling names and cycles: what is above the names of a search stays the same in every round.

* `Table.Reaches t a b`         one or more steps to a direct supertype lead from `a` to `b`
* `Table.Frontier`              the invariant of both searches
* `Table.hasAncestor_iff`       a name has those ancestors that it reaches
* `Table.mem_properAncestors`   the listing search agrees with the other one
* `Table.isCallable_iff`        the call method may be declared anywhere above
* `Hierarchy.Lawful`            what the algebra of types relies on; every table has it
* `Hierarchy.Acyclic`           no two names are below each other; every checked table has it
-/

namespace TypeHint

namespace Table

variable {t : Table} {a b c n : String}

/-- `b` is a direct supertype of `a` -/
def Step (t : Table) (a b : String) : Prop := b ∈ t.parents a

/-- `b` is reached from `a` by one or more steps -/
def Reaches (t : Table) : String → String → Prop := Relation.TransGen t.Step

/-! ## registered names -/

theorem find?_isSome_iff : (t.find? n).isSome = true ↔ n ∈ t.names := by
  simp [find?, names]

theorem mem_names_of_step (h : t.Step a b) : a ∈ t.names := by
  rw [← find?_isSome_iff]
  unfold Step parents at h
  cases e : t.find? a with
  | none => rw [e] at h; cases h
  | some s => rfl

theorem mem_names_of_reaches (h : t.Reaches a b) : a ∈ t.names := by
  obtain ⟨x, hx, -⟩ := Relation.TransGen.head'_iff.mp h
  exact mem_names_of_step hx

theorem not_isInterface_of_isClass (h : t.isClass n = true) : t.isInterface n = false := by
  unfold isClass findClass? at h
  unfold isInterface
  cases e : t.find? n with
  | none => rfl
  | some s =>
    rw [e] at h
    cases s with
    | ofClass c => rfl
    | ofInterface i => cases h

/-! ## the searches -/

/-- a direct supertype of an expanded name was expanded or is queued -/
def Frontier (t : Table) (expanded queue : List String) : Prop :=
  ∀ x ∈ expanded, ∀ y, t.Step x y → y ∈ expanded ∨ y ∈ queue

/-- `b` is among the names of a search or above one of them -/
def Ahead (t : Table) (expanded queue : List String) (b : String) : Prop :=
  ∃ x, (x ∈ expanded ∨ x ∈ queue) ∧ Relation.ReflTransGen t.Step x b

section

variable {expanded queue : List String} {x : String}

theorem Frontier.nil : t.Frontier [] queue := fun _ hx => absurd hx List.not_mem_nil

theorem Frontier.skip (hf : t.Frontier expanded (x :: queue)) (hx : x ∈ expanded) :
    t.Frontier expanded queue := by
  intro y hy z hz
  rcases hf y hy z hz with hz | hz
  · exact Or.inl hz
  · rcases List.mem_cons.mp hz with rfl | hz
    · exact Or.inl hx
    · exact Or.inr hz

theorem Frontier.expand (hf : t.Frontier expanded (x :: queue)) :
    t.Frontier (x :: expanded) (queue ++ t.parents x) := by
  intro y hy z hz
  rw [List.mem_cons, List.mem_append]
  rcases List.mem_cons.mp hy with rfl | hy
  · exact Or.inr (Or.inr hz)
  · rcases hf y hy z hz with hz | hz
    · exact Or.inl (Or.inr hz)
    · rcases List.mem_cons.mp hz with rfl | hz
      · exact Or.inl (Or.inl rfl)
      · exact Or.inr (Or.inl hz)

/-- when the queue is empty, nothing is above the expanded names but themselves -/
theorem Frontier.ahead_iff (hf : t.Frontier expanded []) :
    t.Ahead expanded [] b ↔ b ∈ expanded := by
  constructor
  · rintro ⟨x, hx, hxb⟩
    induction hxb with
    | refl => exact hx.resolve_right List.not_mem_nil
    | tail _ hs ih => exact (hf _ ih _ hs).resolve_right List.not_mem_nil
  · exact fun hb => ⟨b, Or.inl hb, .refl⟩

theorem ahead_skip (hx : x ∈ expanded) :
    t.Ahead expanded (x :: queue) b ↔ t.Ahead expanded queue b := by
  have hmem : ∀ y, (y ∈ expanded ∨ y ∈ x :: queue) ↔ (y ∈ expanded ∨ y ∈ queue) := by
    intro y
    rw [List.mem_cons]
    constructor
    · rintro (hy | rfl | hy)
      · exact Or.inl hy
      · exact Or.inl hx
      · exact Or.inr hy
    · exact fun hy => hy.imp_right Or.inr
  simp only [Ahead, hmem]

theorem ahead_expand :
    t.Ahead (x :: expanded) (queue ++ t.parents x) b ↔ t.Ahead expanded (x :: queue) b := by
  unfold Ahead
  simp only [List.mem_cons, List.mem_append]
  constructor
  · rintro ⟨y, (rfl | hy) | hy | hy, hyb⟩
    · exact ⟨y, Or.inr (Or.inl rfl), hyb⟩
    · exact ⟨y, Or.inl hy, hyb⟩
    · exact ⟨y, Or.inr (Or.inr hy), hyb⟩
    · exact ⟨x, Or.inr (Or.inl rfl), .head hy hyb⟩
  · rintro ⟨y, hy | rfl | hy, hyb⟩
    · exact ⟨y, Or.inl (Or.inr hy), hyb⟩
    · exact ⟨y, Or.inl (Or.inl rfl), hyb⟩
    · exact ⟨y, Or.inr (Or.inl hy), hyb⟩

theorem finds_iff {seen : List String} (hf : t.Frontier seen queue) (hb : b ∉ seen) :
    t.finds b seen queue = true ↔ t.Ahead seen queue b := by
  fun_induction finds t b seen queue with
  | case1 => simp [hf.ahead_iff, hb]
  | case2 => exact ⟨fun _ => ⟨b, Or.inr List.mem_cons_self, .refl⟩, fun _ => rfl⟩
  | case3 seen next queue hne hseen ih => rw [ih (hf.skip hseen) hb, ahead_skip hseen]
  | case4 seen next queue hne hseen ih =>
    rw [ih hf.expand (List.not_mem_cons_of_ne_of_not_mem (Ne.symm hne) hb), ahead_expand]

/-- `expanded` are the seen names and the start of the listing search -/
def Done (a : String) (seen expanded : List String) : Prop :=
  ∀ x, x ∈ expanded ↔ x = a ∨ x ∈ seen

theorem done_start (a : String) : Done a [] [a] := by
  intro x
  rw [List.mem_singleton, or_iff_left List.not_mem_nil]

theorem Done.append {seen : List String} (hd : Done a seen expanded) (xs : List String) :
    Done a (xs.reverse ++ seen) (xs ++ expanded) := by
  intro y
  rw [List.mem_append, List.mem_append, List.mem_reverse, hd, or_left_comm]

theorem Done.cons {seen : List String} (hd : Done a seen expanded) (x : String) :
    Done a (x :: seen) (x :: expanded) :=
  hd.append [x]

theorem mem_collect_iff {seen : List String} (hd : Done a seen expanded)
    (hf : t.Frontier expanded queue) :
    b ∈ t.collect a seen queue ↔ b ∉ expanded ∧ t.Ahead expanded queue b := by
  fun_induction collect t a seen queue generalizing expanded with
  | case1 =>
    rw [hf.ahead_iff]
    exact ⟨fun h => absurd h List.not_mem_nil, fun h => absurd h.2 h.1⟩
  | case2 seen next queue hold ih =>
    have hmem : next ∈ expanded := (hd next).mpr hold
    rw [ih hd (hf.skip hmem), ahead_skip hmem]
  | case3 seen next queue hnew ih =>
    rw [List.mem_cons, ih (hd.cons next) hf.expand, ahead_expand]
    by_cases hb : b = next
    · subst hb
      have hahead : t.Ahead expanded (b :: queue) b := ⟨b, Or.inr List.mem_cons_self, .refl⟩
      exact ⟨fun _ => ⟨mt (hd b).mp hnew, hahead⟩, fun _ => Or.inl rfl⟩
    · rw [or_iff_right hb, List.mem_cons, not_or, and_iff_right hb]

theorem new_of_mem_collect {seen : List String} (hb : b ∈ t.collect a seen queue) :
    ¬ (b = a ∨ b ∈ seen) := by
  fun_induction collect t a seen queue with
  | case1 => cases hb
  | case2 seen next queue hold ih => exact ih hb
  | case3 seen next queue hnew ih =>
    rcases List.mem_cons.mp hb with rfl | hb
    · exact hnew
    · exact fun h => ih hb (h.imp_right (List.mem_cons_of_mem _))

theorem collect_nodup (a : String) (seen queue : List String) :
    (t.collect a seen queue).Nodup := by
  fun_induction collect t a seen queue with
  | case1 => exact List.nodup_nil
  | case2 seen next queue hold ih => exact ih
  | case3 seen next queue hnew ih =>
    exact List.nodup_cons.mpr
      ⟨fun h => new_of_mem_collect h (Or.inr List.mem_cons_self), ih⟩

end

theorem hasAncestor_iff : t.hasAncestor a b = true ↔ t.Reaches a b := by
  rw [hasAncestor, finds_iff .nil List.not_mem_nil, Reaches, Relation.TransGen.head'_iff]
  simp only [Ahead, List.not_mem_nil, false_or]
  rfl

theorem isBelow_iff : t.isBelow a b = true ↔ a ≠ b ∧ t.Reaches a b := by
  rw [isBelow, Bool.and_eq_true, bne_iff_ne, hasAncestor_iff]

theorem ahead_start : t.Ahead [a] (t.parents a) b ↔ b = a ∨ t.Reaches a b := by
  have hstart : t.Ahead [a] ([] ++ t.parents a) b ↔ t.Ahead [] [a] b := ahead_expand
  rw [List.nil_append] at hstart
  rw [hstart, Reaches, ← Relation.reflTransGen_iff_eq_or_transGen]
  simp only [Ahead, List.not_mem_nil, false_or, List.mem_singleton, exists_eq_left]

/-- the two searches agree, although only one of them may come back to its start -/
theorem mem_properAncestors : b ∈ t.properAncestors a ↔ t.isBelow a b = true := by
  have hf : t.Frontier [a] (t.parents a) := by
    intro x hx y hy
    exact Or.inr (List.mem_singleton.mp hx ▸ hy)
  rw [properAncestors, mem_collect_iff (done_start a) hf, ahead_start, isBelow_iff,
    List.mem_singleton, ne_comm]
  exact and_congr_right fun hne => or_iff_right hne

theorem searchOrder_nodup (t : Table) (a : String) : (a :: t.properAncestors a).Nodup :=
  List.nodup_cons.mpr ⟨fun h => new_of_mem_collect h (Or.inl rfl), collect_nodup a [] _⟩

/-! ## the call method -/

theorem mem_searchOrder_tail : b ∈ a :: t.properAncestors a ↔ b = a ∨ t.Reaches a b := by
  rw [List.mem_cons, mem_properAncestors, isBelow_iff]
  by_cases e : b = a
  · simp [e]
  · simp [e, Ne.symm e]

theorem mem_declared {m : Member Method} :
    m ∈ (n :: t.properAncestors n).flatMap t.declaredMethods ↔
      ∃ d, (d = n ∨ t.Reaches n d) ∧ m ∈ t.declaredMethods d := by
  rw [List.mem_flatMap]
  constructor
  · rintro ⟨d, hd, hm⟩
    exact ⟨d, mem_searchOrder_tail.mp hd, hm⟩
  · rintro ⟨d, hd, hm⟩
    exact ⟨d, mem_searchOrder_tail.mpr hd, hm⟩

theorem method_of_mem_names (hn : n ∈ t.names) (m : String) : t.method n m =
    match ((n :: t.properAncestors n).flatMap t.declaredMethods).find?
      (fun d => Text.foldCase d.decl.name == Text.foldCase m) with
    | some d => .ok d
    | none => .error (.noMember n m) := by
  rw [method, searchOrder, if_pos (find?_isSome_iff.mpr hn)]
  rfl

theorem isCallable_iff : t.isCallable n = true ↔ n ∈ t.names ∧ ∃ d, (d = n ∨ t.Reaches n d) ∧
    ∃ m ∈ t.declaredMethods d, Text.foldCase m.decl.name = Text.foldCase callMethod := by
  rw [isCallable]
  by_cases hn : n ∈ t.names
  · rw [method_of_mem_names hn]
    split
    · rename_i m e
      obtain ⟨d, hd, hm⟩ := mem_declared.mp (List.mem_of_find?_eq_some e)
      have hk := List.find?_some e
      exact ⟨fun _ => ⟨hn, d, hd, m, hm, beq_iff_eq.mp hk⟩, fun _ => rfl⟩
    · rename_i e
      rw [List.find?_eq_none] at e
      refine ⟨fun h => (by cases h), ?_⟩
      rintro ⟨-, d, hd, m, hm, hk⟩
      exact absurd (beq_iff_eq.mpr hk) (e m (mem_declared.mpr ⟨d, hd, hm⟩))
  · rw [method, searchOrder, if_neg (mt find?_isSome_iff.mp hn)]
    exact ⟨fun h => (by cases h), fun h => absurd h.1 hn⟩

end Table

/-! ## laws of a hierarchy -/

namespace Hierarchy

/-- what the algebra of types relies on; names need not be registered, and there may be cycles -/
structure Lawful (h : Hierarchy) : Prop where
  below_trans : ∀ {a b c}, h.isBelow a b = true → h.isBelow b c = true → a ≠ c →
    h.isBelow a c = true
  implements_iff : ∀ {c i}, h.implements c i = true ↔
    h.isClass c = true ∧ h.isInterface i = true ∧ h.isBelow c i = true
  /-- no name is both a class and an interface -/
  disjoint : ∀ {n}, h.isClass n = true → h.isInterface n = false
  callable_of_below : ∀ {a b}, h.isBelow a b = true → h.isCallable b = true → h.isCallable a = true

/-- no two names are below each other -/
def Acyclic (h : Hierarchy) : Prop :=
  ∀ a b, h.isBelow a b = true → h.isBelow b a = false

variable {h : Hierarchy} {a b c : String}

theorem instanceOf_iff :
    h.instanceOf a b = true ↔ a = b ∨ h.isBelow a b = true := by
  rw [instanceOf, Bool.or_eq_true, beq_iff_eq]

theorem Lawful.instanceOf_trans (hl : h.Lawful)
    (hab : h.instanceOf a b = true) (hbc : h.instanceOf b c = true) :
    h.instanceOf a c = true := by
  rw [instanceOf_iff] at *
  rcases hab with rfl | hab
  · exact hbc
  · rcases hbc with rfl | hbc
    · exact Or.inr hab
    · by_cases e : a = c
      · exact Or.inl e
      · exact Or.inr (hl.below_trans hab hbc e)

theorem Lawful.isCallable_of_instanceOf (hl : h.Lawful)
    (hab : h.instanceOf a b = true) (hb : h.isCallable b = true) : h.isCallable a = true := by
  rcases instanceOf_iff.mp hab with rfl | hab
  · exact hb
  · exact hl.callable_of_below hab hb

theorem Lawful.instanceOf_of_implements (hl : h.Lawful)
    (hab : h.implements a b = true) : h.instanceOf a b = true :=
  instanceOf_iff.mpr (Or.inr (hl.implements_iff.mp hab).2.2)

end Hierarchy

namespace Table

variable {t : Table} {a b : String}

theorem isCallable_of_isBelow (hab : t.isBelow a b = true) (hb : t.isCallable b = true) :
    t.isCallable a = true := by
  obtain ⟨-, hab⟩ := isBelow_iff.mp hab
  obtain ⟨-, d, hd, hm⟩ := isCallable_iff.mp hb
  refine isCallable_iff.mpr ⟨mem_names_of_reaches hab, d, Or.inr ?_, hm⟩
  rcases hd with rfl | hd
  · exact hab
  · exact hab.trans hd

theorem lawful (t : Table) : t.hierarchy.Lawful where
  below_trans hab hbc hne :=
    isBelow_iff.mpr ⟨hne, (isBelow_iff.mp hab).2.trans (isBelow_iff.mp hbc).2⟩
  implements_iff := by
    intro c i
    show t.implements c i = true ↔
      t.isClass c = true ∧ t.isInterface i = true ∧ t.isBelow c i = true
    rw [implements, Bool.and_eq_true, Bool.and_eq_true, and_assoc]
  disjoint := not_isInterface_of_isClass
  callable_of_below := isCallable_of_isBelow

theorem faults_eq_nil_of_check (h : t.check = .ok ()) : t.faults = [] := by
  unfold check at h
  split at h
  · assumption
  · cases h

theorem not_reaches_self_of_check (h : t.check = .ok ()) : ¬ t.Reaches a a := by
  intro hr
  have hf := faults_eq_nil_of_check h
  rw [faults, List.append_eq_nil_iff, List.map_eq_nil_iff, List.filter_eq_nil_iff] at hf
  exact hf.2 a (mem_sortBy.mpr (mem_names_of_reaches hr)) (hasAncestor_iff.mpr hr)

theorem acyclic_of_check (h : t.check = .ok ()) : t.hierarchy.Acyclic := by
  intro a b hab
  show t.isBelow b a = false
  rw [Bool.eq_false_iff]
  intro hba
  exact not_reaches_self_of_check h ((isBelow_iff.mp hab).2.trans (isBelow_iff.mp hba).2)

/-- a small table: an interface with the call method, a class that implements it, and a class below
that one -/
def handlers : Table where
  symbols := [.ofInterface ⟨"Handler", [], [], [⟨"__Invoke", ["event"], none⟩]⟩,
    .ofClass ⟨"Base", none, ["Handler"], true, [], [], []⟩,
    .ofClass ⟨"Leaf", some "Base", [], false, [], [], []⟩]
  nodup := by decide

end Table

end TypeHint
