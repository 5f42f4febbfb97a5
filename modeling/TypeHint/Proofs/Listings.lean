import Mathlib.Order.Lattice.Nat
import TypeHint.Proofs.Overriding

/-!
# Lists of members agree with the single queries

A table can list all methods of a type and all interfaces of a class, and it can be asked for one
method or one interface.  The answers agree in every table, also where supertypes are missing or a
type is its own ancestor.

* `Table.exists_mem_methods_iff`  every name that is declared at or above a type is listed
* `Table.method_of_mem_methods`   what is listed is found by its name
* `method_queries_agree`          a single method is the element of the list with its name
* `Table.isLeast_sInf_climb`      everything above a type has a least number of edges from it
* `interfacesOf_nearest_first`    the interfaces of a class, in the order of these numbers
-/

namespace TypeHint

open Text

namespace Table

variable {t : Table} {a b c n name : String} {k l : Nat}

/-! ## methods -/

theorem methods_of_mem_names (hn : n ∈ t.names) : t.methods n = .ok
    (freshBy (foldCase ·.decl.name) []
      ((n :: t.properAncestors n).flatMap t.declaredMethods)) := by
  rw [methods, searchOrder, if_pos (find?_isSome_iff.mpr hn)]
  rfl

theorem searchOrder_of_not_mem (hn : n ∉ t.names) :
    t.searchOrder n = .error (.notRegistered n) :=
  if_neg (mt find?_isSome_iff.mp hn)

theorem methods_of_not_mem (hn : n ∉ t.names) : t.methods n = .error (.notRegistered n) := by
  rw [methods, searchOrder_of_not_mem hn]
  rfl

theorem method_of_not_mem (hn : n ∉ t.names) (name : String) :
    t.method n name = .error (.notRegistered n) := by
  rw [method, searchOrder_of_not_mem hn]
  rfl

theorem declares_above_iff : (∃ d, Relation.ReflTransGen t.Edge n d ∧ t.Declares d name) ↔
    ∃ m ∈ (n :: t.properAncestors n).flatMap t.declaredMethods,
      foldCase m.decl.name = foldCase name := by
  simp only [← mem_searchOrder_iff, declares_iff, List.mem_flatMap]
  constructor
  · rintro ⟨d, hd, m, hm, hname⟩
    exact ⟨m, ⟨d, hd, hm⟩, hname⟩
  · rintro ⟨m, ⟨d, hd, hm⟩, hname⟩
    exact ⟨d, hd, m, hm, hname⟩

theorem method_of_mem_methods (hn : n ∈ t.names) {ms : List (Member Method)}
    (hms : t.methods n = .ok ms) {m : Member Method} (hm : m ∈ ms)
    (hname : foldCase m.decl.name = foldCase name) : t.method n name = .ok m := by
  rw [methods_of_mem_names hn] at hms
  cases hms
  have hfind := find?_of_mem_freshBy hm
  rw [hname] at hfind
  rw [method_of_mem_names hn, hfind]

theorem exists_mem_methods_iff (hn : n ∈ t.names) {ms : List (Member Method)}
    (hms : t.methods n = .ok ms) (name : String) :
    (∃ m ∈ ms, foldCase m.decl.name = foldCase name) ↔
      ∃ d, Relation.ReflTransGen t.Edge n d ∧ t.Declares d name := by
  rw [methods_of_mem_names hn] at hms
  cases hms
  rw [declares_above_iff]
  constructor
  · rintro ⟨m, hm, hname⟩
    exact ⟨m, (freshBy_sublist _ _ _).subset hm, hname⟩
  · rintro ⟨m, hm, hname⟩
    rw [← hname]
    exact exists_mem_freshBy hm List.not_mem_nil

theorem method_of_not_declares (hn : n ∈ t.names)
    (hno : ¬ ∃ d, Relation.ReflTransGen t.Edge n d ∧ t.Declares d name) :
    t.method n name = .error (.noMember n name) := by
  rw [declares_above_iff] at hno
  have hnone : ((n :: t.properAncestors n).flatMap t.declaredMethods).find?
      (foldCase ·.decl.name == foldCase name) = none := by
    rw [List.find?_eq_none]
    intro m hm hname
    exact hno ⟨m, hm, beq_iff_eq.mp hname⟩
  rw [method_of_mem_names hn, hnone]

theorem mem_names_of_declares {d : String} (hd : Relation.ReflTransGen t.Edge n d)
    (hdecl : t.Declares d name) : n ∈ t.names := by
  rcases Relation.reflTransGen_iff_eq_or_transGen.mp hd with rfl | hd
  · obtain ⟨s, hs, rfl, -⟩ := hdecl
    exact List.mem_map_of_mem hs
  · exact mem_names_of_reaches (reaches_iff_edges.mpr hd)

theorem isCallable_iff_declares : t.isCallable n = true ↔
    ∃ d, Relation.ReflTransGen t.Edge n d ∧ t.Declares d callMethod := by
  rw [isCallable_iff]
  constructor
  · rintro ⟨-, d, hd, hm⟩
    exact ⟨d, mem_searchOrder_iff.mp (mem_searchOrder_tail.mpr hd), declares_iff.mpr hm⟩
  · rintro ⟨d, hd, hdecl⟩
    exact ⟨mem_names_of_declares hd hdecl, d, mem_searchOrder_tail.mp (mem_searchOrder_iff.mpr hd),
      declares_iff.mp hdecl⟩

theorem methods_eq_error_iff {e : SymbolError} :
    t.methods n = .error e ↔ n ∉ t.names ∧ e = .notRegistered n := by
  by_cases hn : n ∈ t.names
  · rw [methods_of_mem_names hn]
    exact ⟨fun h => (by cases h), fun h => absurd hn h.1⟩
  · rw [methods_of_not_mem hn]
    exact ⟨fun h => ⟨hn, (Except.error.inj h).symm⟩, fun h => h.2 ▸ rfl⟩

/-- a type that is not registered is another failure than a method that is not there -/
theorem method_eq_notRegistered_iff :
    t.method n name = .error (.notRegistered b) ↔ n ∉ t.names ∧ b = n := by
  by_cases hn : n ∈ t.names
  · rw [method_of_mem_names hn]
    refine ⟨fun h => ?_, fun h => absurd hn h.1⟩
    split at h <;> cases h
  · rw [method_of_not_mem hn]
    refine ⟨fun h => ?_, fun h => h.2 ▸ rfl⟩
    cases h
    exact ⟨hn, rfl⟩

/-- Two classes, each of them the parent of the other, and an interface that is not registered.  One
method is declared in three spellings, and the names of two others differ outside ASCII. -/
def callers : Table where
  symbols := [.ofClass ⟨"Left", some "Right", ["Missing"], false, [],
      [⟨"Run", [], none⟩, ⟨"run", [], none⟩, ⟨"Été", [], none⟩], []⟩,
    .ofClass ⟨"Right", some "Left", [], false, [],
      [⟨"RUN", [], none⟩, ⟨"été", [], none⟩, ⟨"__Invoke", [], none⟩], []⟩]
  nodup := by decide

/-! ## distances -/

theorem isLeast_sInf_climb (h : Relation.ReflTransGen t.Edge a b) :
    IsLeast {n | t.Climb a n b} (sInf {n | t.Climb a n b}) :=
  ⟨Nat.sInf_mem (exists_climb h), fun _ hn => Nat.sInf_le hn⟩

theorem NoFarther.le (h : t.NoFarther a b c) (hb : IsLeast {n | t.Climb a n b} k)
    (hc : IsLeast {n | t.Climb a n c} l) : k ≤ l := by
  obtain ⟨j, hj, hjb⟩ := h l hc.1
  exact (hb.2 hjb).trans hj

theorem interfacesOf_of_isClass (hc : t.isClass c = true) :
    t.interfacesOf c = .ok ((t.properAncestors c).filter t.isInterface) := by
  obtain ⟨d, hd⟩ := Option.isSome_iff_exists.mp hc
  rw [interfacesOf, getClass, hd]
  rfl

theorem implements_iff_edges (hc : t.isClass c = true) :
    t.implements c b = true ↔ t.isInterface b = true ∧ Relation.TransGen t.Edge c b := by
  rw [implements, Bool.and_eq_true, Bool.and_eq_true, isBelow_iff, reaches_iff_edges]
  constructor
  · rintro ⟨⟨-, hb⟩, -, hcb⟩
    exact ⟨hb, hcb⟩
  · rintro ⟨hb, hcb⟩
    refine ⟨⟨hc, hb⟩, ?_, hcb⟩
    rintro rfl
    rw [not_isInterface_of_isClass hc] at hb
    cases hb

/-- two classes, each of them the parent of the other; both lead to one interface, which is named
once directly and once by another interface -/
def diamond : Table where
  symbols := [.ofInterface ⟨"Named", [], [], []⟩,
    .ofInterface ⟨"Shape", ["Named"], [], []⟩,
    .ofClass ⟨"Form", some "Square", ["Named"], true, [], [], []⟩,
    .ofClass ⟨"Square", some "Form", ["Shape"], false, [], [], []⟩]
  nodup := by decide

end Table

/-- **The list of methods and the single method agree.**  In every table both fail for exactly the
names that are not registered.  Else the list has no two names that differ only in ASCII case, and
holds a name exactly if some type at or above the given one declares it.  A single method is the
element of the list with its name, and there is none if no element has it.  A type can be called
exactly if something at or above it declares the call method. -/
theorem method_queries_agree (t : Table) (ty : String) :
    (∀ e, t.methods ty = .error e ↔ ty ∉ t.names ∧ e = .notRegistered ty) ∧
    (∀ name n, t.method ty name = .error (.notRegistered n) ↔ ty ∉ t.names ∧ n = ty) ∧
    (ty ∈ t.names → ∃ ms, t.methods ty = .ok ms ∧ (ms.map (foldCase ·.decl.name)).Nodup ∧
      ∀ name,
        ((∃ m ∈ ms, foldCase m.decl.name = foldCase name) ↔
          ∃ d, Relation.ReflTransGen t.Edge ty d ∧ t.Declares d name) ∧
        (∀ m ∈ ms, foldCase m.decl.name = foldCase name → t.method ty name = .ok m) ∧
        ((∀ m ∈ ms, foldCase m.decl.name ≠ foldCase name) →
          t.method ty name = .error (.noMember ty name))) ∧
    (t.isCallable ty = true ↔
      ∃ d, Relation.ReflTransGen t.Edge ty d ∧ t.Declares d "__invoke") := by
  refine ⟨fun e => Table.methods_eq_error_iff, fun name n => Table.method_eq_notRegistered_iff,
    fun hn => ?_, Table.isCallable_iff_declares⟩
  have hms := Table.methods_of_mem_names hn
  refine ⟨_, hms, List.pairwise_map.mpr (freshBy_pairwise _ _ _), fun name => ?_⟩
  have hlisted := Table.exists_mem_methods_iff hn hms name
  refine ⟨hlisted, fun m hm => Table.method_of_mem_methods hn hms hm, fun hno => ?_⟩
  refine Table.method_of_not_declares hn fun hdecl => ?_
  obtain ⟨m, hm, hname⟩ := hlisted.mpr hdecl
  exact hno m hm hname

/-- On a cycle with a missing interface: four methods of six declarations, since only ASCII letters
are folded.  The nearest of three spellings is found, and the call method of the other class. -/
theorem method_queries_agree_of_callers :
    "Left" ∈ Table.callers.names ∧ Relation.TransGen Table.callers.Edge "Left" "Left" ∧
    (∃ ms, Table.callers.methods "Left" = .ok ms ∧
      ms.map (·.decl.name) = ["Run", "Été", "été", "__Invoke"] ∧
      (ms.map (foldCase ·.decl.name)).Nodup ∧
      (∀ m ∈ ms, foldCase m.decl.name = foldCase "rUN" →
        Table.callers.method "Left" "rUN" = .ok m) ∧
      Table.callers.method "Left" "ÉTÉ" = .error (.noMember "Left" "ÉTÉ")) ∧
    Table.callers.isCallable "Left" = true ∧
    Table.callers.methods "Missing" = .error (.notRegistered "Missing") := by
  obtain ⟨-, -, hlist, hcall⟩ := method_queries_agree Table.callers "Left"
  obtain ⟨herror, -⟩ := method_queries_agree Table.callers "Missing"
  have hleft : "Left" ∈ Table.callers.names := by decide
  have hright : Table.callers.Edge "Left" "Right" := by decide
  have hback : Table.callers.Edge "Right" "Left" := by decide
  obtain ⟨ms, hms, hnd, hname⟩ := hlist hleft
  have hnames : ms.map (·.decl.name) = ["Run", "Été", "été", "__Invoke"] := by
    cases hms
    rfl
  have hno : ∀ m ∈ ms, foldCase m.decl.name ≠ foldCase "ÉTÉ" := by
    cases hms
    decide
  refine ⟨hleft, .tail (.single hright) hback, ⟨ms, hms, hnames, hnd, (hname _).2.1,
    (hname _).2.2 hno⟩, hcall.mpr ⟨"Right", .single hright, ?_⟩, (herror _).mpr ⟨by decide, rfl⟩⟩
  unfold Table.Declares
  decide

/-- **The interfaces of a class, nearest first.**  In every table the list holds exactly the
interfaces that the class implements, these are the interfaces that are reached by edges, each is
listed once, and their least numbers of edges from the class never decrease. -/
theorem interfacesOf_nearest_first (t : Table) (c : String) (hc : t.isClass c = true) :
    ∃ is ks, t.interfacesOf c = .ok is ∧ is.Nodup ∧
      (∀ i, i ∈ is ↔ t.implements c i = true) ∧
      (∀ i, t.implements c i = true ↔ t.isInterface i = true ∧ Relation.TransGen t.Edge c i) ∧
      List.Forall₂ (fun i k => IsLeast {n | t.Climb c n i} k) is ks ∧ ks.Pairwise (· ≤ ·) := by
  have hlist := Table.interfacesOf_of_isClass hc
  have hmem : ∀ i, i ∈ (t.properAncestors c).filter t.isInterface ↔ t.implements c i = true := by
    intro i
    rw [List.mem_filter, Table.mem_properAncestors, Table.implements, hc, Bool.true_and,
      Bool.and_eq_true, and_comm]
  have hleast : ∀ i ∈ (t.properAncestors c).filter t.isInterface,
      IsLeast {n | t.Climb c n i} (sInf {n | t.Climb c n i}) := by
    intro i hi
    have hedges := ((Table.implements_iff_edges hc).mp ((hmem i).mp hi)).2
    exact Table.isLeast_sInf_climb hedges.to_reflTransGen
  refine ⟨_, ((t.properAncestors c).filter t.isInterface).map fun i => sInf {n | t.Climb c n i},
    hlist, ?_, hmem, fun i => Table.implements_iff_edges hc, ?_, ?_⟩
  · exact (List.nodup_cons.mp (t.searchOrder_nodup c)).2.filter _
  · exact List.forall₂_map_right_iff.mpr (List.forall₂_same.mpr hleast)
  · have hsorted := (List.pairwise_cons.mp (t.searchOrder_nearest c)).2.filter t.isInterface
    refine List.pairwise_map.mpr (hsorted.imp_of_mem ?_)
    intro i j hi hj hij
    exact hij.le (hleast i hi) (hleast j hj)

/-- on a cycle, with two ways to the farther interface, one of which starts at a class that is
expanded before the nearer interface -/
theorem interfacesOf_nearest_first_of_diamond :
    Table.diamond.isClass "Square" = true ∧
    Relation.TransGen Table.diamond.Edge "Square" "Square" ∧
    Table.diamond.interfacesOf "Square" = .ok ["Shape", "Named"] ∧
    (∃ ks, List.Forall₂ (fun i k => IsLeast {n | Table.diamond.Climb "Square" n i} k)
      ["Shape", "Named"] ks ∧ ks.Pairwise (· ≤ ·)) ∧
    Table.diamond.implements "Square" "Named" = true := by
  have hclass : Table.diamond.isClass "Square" = true := by decide
  have hform : Table.diamond.Edge "Square" "Form" := by decide
  have hback : Table.diamond.Edge "Form" "Square" := by decide
  have hlist : Table.diamond.interfacesOf "Square" = .ok ["Shape", "Named"] := rfl
  obtain ⟨is, ks, his, -, hmem, -, hdist, hsorted⟩ :=
    interfacesOf_nearest_first Table.diamond "Square" hclass
  cases hlist.symm.trans his
  exact ⟨hclass, .tail (.single hform) hback, hlist, ⟨ks, hdist, hsorted⟩,
    (hmem "Named").mp (by decide)⟩

end TypeHint
