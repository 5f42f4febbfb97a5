import Mathlib.Data.List.Induction
import TypeHint.Proofs.Faces

/-!
# Registration

Symbols are registered one after another, classes and interfaces in any mixture.  A name belongs to
the first symbol that is declared with it; a later one is refused and leaves no trace.  Which symbols
survive is all that counts afterwards: their order cannot be found out.

* `Session.register_answer`    what one call does
* `Session.find?_registering`  what a sequence of calls leaves under each name
* `Table.Alike.faces`          equal symbols in any order show equal faces
-/

namespace TypeHint

open Text

namespace Symbol

theorem name_normal (s : Symbol) : s.normal.name = Name.strip s.name := by cases s <;> rfl

theorem kind_normal (s : Symbol) : s.normal.kind = s.kind := by cases s <;> rfl

end Symbol

/-! ## calls -/

namespace Session

/-- registers symbols one after another, beginning with none -/
def registering (symbols : List Symbol) : Session :=
  (ofTable .empty).run (symbols.map .register)

variable {symbols : List Symbol} {x : Symbol} {n : String}

theorem registering_append (symbols : List Symbol) (x : Symbol) :
    registering (symbols ++ [x]) = (Entry.mk (registering symbols) (.register x)).after := by
  unfold registering run
  rw [List.map_append, List.foldl_append]
  rfl

/-- what one call does; a name that is taken, by a class or an interface, is refused -/
theorem register_answer (s : Session) (x : Symbol) :
    let e : Entry := ⟨s, .register x⟩
    if Name.strip x.name ∈ s.table.names then
      e.answer = .error (.nameTaken x.kind (Name.strip x.name)) ∧ e.after = s
    else e.answer = .ok none ∧ e.after.table.symbols = s.table.symbols ++ [x.normal] ∧
      e.after.types = s.types := by
  intro e
  have hperform : e.action.perform e.before = _ := Action.perform_register x s
  unfold Table.register at hperform
  simp only [Symbol.name_normal, Symbol.kind_normal] at hperform
  unfold Entry.answer Entry.after
  rw [hperform]
  by_cases hn : Name.strip x.name ∈ s.table.names
  · simp [hn]
  · simp [hn]

theorem types_registering (symbols : List Symbol) : (registering symbols).types = [] := by
  induction symbols using List.reverseRecOn with
  | nil => rfl
  | append_singleton symbols x ih =>
    have hstep := register_answer (registering symbols) x
    rw [registering_append]
    split at hstep
    · rw [hstep.2, ih]
    · rw [hstep.2.2, ih]

theorem find?_registering (symbols : List Symbol) (n : String) :
    (registering symbols).table.find? n =
      (symbols.find? (Name.strip ·.name == n)).map Symbol.normal := by
  induction symbols using List.reverseRecOn with
  | nil => rfl
  | append_singleton symbols x ih =>
    have hstep := register_answer (registering symbols) x
    rw [registering_append, List.find?_append, Option.map_or, ← ih]
    split at hstep
    · rename_i htaken
      rw [hstep.2]
      by_cases hx : Name.strip x.name = n
      · -- an earlier symbol is found, so the refused one is not looked for
        obtain ⟨s, hs⟩ := Option.isSome_iff_exists.mp (Table.find?_isSome_iff.mpr (hx ▸ htaken))
        rw [hs]
        rfl
      · rw [List.find?_singleton, if_neg (by simpa using hx), Option.map_none, Option.or_none]
    · have hlast : [x.normal].find? (·.name == n) =
          ([x].find? (Name.strip ·.name == n)).map Symbol.normal := by
        rw [List.find?_singleton, List.find?_singleton, Symbol.name_normal]
        split <;> rfl
      unfold Table.find?
      rw [hstep.2.1, List.find?_append, hlast]

theorem mem_registering {d : Symbol} : d ∈ (registering symbols).table.symbols ↔
    (symbols.find? (Name.strip ·.name == d.name)).map Symbol.normal = some d := by
  rw [← find?_registering, Table.find?_eq_some_iff, and_iff_left rfl]

theorem mem_names_registering :
    n ∈ (registering symbols).table.names ↔ ∃ d ∈ symbols, Name.strip d.name = n := by
  rw [← Table.find?_isSome_iff, find?_registering, Option.isSome_map, List.find?_isSome]
  simp only [beq_iff_eq]

end Session

/-! ## the order of registration -/

namespace Table

variable {t u : Table}

def Alike (t u : Table) : Prop :=
  (∀ s ∈ t.symbols, ∃ s' ∈ u.symbols, s.Alike s') ∧ ∀ s' ∈ u.symbols, ∃ s ∈ t.symbols, s.Alike s'

theorem Alike.faces (h : t.Alike u) (hd : ∀ s ∈ t.symbols, s.DistinctAliases) : t.SameFaces u := by
  intro n
  cases ht : t.find? n with
  | some s =>
    obtain ⟨hs, rfl⟩ := find?_eq_some_iff.mp ht
    obtain ⟨s', hs', hss'⟩ := h.1 s hs
    have hname := Symbol.name_eq_of_outline hss'.outline
    rw [find?_eq_some_iff.mpr ⟨hs', hname.symm⟩, Option.map_some, Option.map_some,
      hss'.face (hd s hs)]
  | none =>
    cases hu : u.find? n with
    | none => rfl
    | some s' =>
      obtain ⟨hs', rfl⟩ := find?_eq_some_iff.mp hu
      obtain ⟨s, hs, hss'⟩ := h.2 s' hs'
      rw [find?_eq_some_iff.mpr ⟨hs, Symbol.name_eq_of_outline hss'.outline⟩] at ht
      cases ht

end Table

/-- a class under a name with or without separators in front, and with its imports in any order -/
def Symbol.order (name : String) (imports : List (String × String)) : Symbol :=
  .ofClass ⟨name, none, [], false, imports,
    [⟨"add", ["$items"], some "/** @param Ware[] $items */"⟩], []⟩

def Symbol.item : Symbol := .ofClass ⟨"\\Shop\\Item", none, [], false, [], [], []⟩

/-- the second declaration comes too late -/
def Symbol.ordersFirst : List Symbol :=
  [.order "\\App\\Order" [("Ware", "Shop\\Item"), ("Tax", "Shop\\Tax")],
    .ofInterface ⟨"App\\Order", [], [], []⟩, .item]

def Symbol.itemsFirst : List Symbol :=
  [.item, .order "App\\Order" [("Tax", "Shop\\Tax"), ("Ware", "Shop\\Item")]]

/-- **The first declaration of a name wins, and the order of the winners cannot be seen.**  After any
sequence of calls the table holds exactly the first declaration of each name, and no name is both a
class and an interface.  A call fails if and only if an earlier one had the same name; it says which
name is taken, and leaves the whole session as it was.  Two sequences with the same survivors, in any
order and with their imports in any order, give tables that answer every question alike; and so they
do in every further run, whatever is asked, checked or registered in it. -/
theorem registration_first_wins (first second : List Symbol) :
    let s := Session.registering first
    let u := Session.registering second
    (∀ d, d ∈ s.table.symbols ↔
      (first.find? (Name.strip ·.name == d.name)).map Symbol.normal = some d) ∧
    (∀ n, ¬ (s.table.isClass n = true ∧ s.table.isInterface n = true)) ∧
    (∀ before x after, first = before ++ x :: after →
      let e : Entry := ⟨Session.registering before, .register x⟩
      if ∃ b ∈ before, Name.strip b.name = Name.strip x.name then
        e.answer = .error (.nameTaken x.kind (Name.strip x.name)) ∧ e.after = e.before
      else e.answer = .ok none ∧ e.after.table.symbols = e.before.table.symbols ++ [x.normal]) ∧
    (s.table.Alike u.table → (∀ d ∈ s.table.symbols, d.DistinctAliases) →
      s.table.SameAnswers u.table ∧ ∀ actions,
        (s.transcript actions).map Entry.answer = (u.transcript actions).map Entry.answer) := by
  intro s u
  refine ⟨fun d => Session.mem_registering, ?_, ?_, ?_⟩
  · rintro n ⟨hclass, hiface⟩
    rw [Table.not_isInterface_of_isClass hclass] at hiface
    cases hiface
  · intro before x after _ e
    have hstep := Session.register_answer (Session.registering before) x
    simp only [Session.mem_names_registering] at hstep
    split at hstep
    · rename_i htaken
      rw [if_pos htaken]
      exact hstep
    · rename_i hfree
      rw [if_neg hfree]
      exact ⟨hstep.1, hstep.2.1⟩
  · intro halike hd
    have hf := halike.faces hd
    have hs : s.Alike u := ⟨hf, by rw [Session.types_registering, Session.types_registering]⟩
    exact ⟨hf.answers, hs.transcript⟩

/-- a declaration that comes too late, separators in front of names, and imports in another order -/
theorem registration_first_wins_of_orders :
    let s := Session.registering Symbol.ordersFirst
    let u := Session.registering Symbol.itemsFirst
    let question := [Action.ask none (.parameter "App\\Order" "add" "items")]
    s.table.names = ["App\\Order", "Shop\\Item"] ∧ u.table.names = ["Shop\\Item", "App\\Order"] ∧
    (Entry.mk (Session.registering (Symbol.ordersFirst.take 1))
      (.register (.ofInterface ⟨"App\\Order", [], [], []⟩))).answer =
        .error (.nameTaken .interface "App\\Order") ∧
    s.table.Alike u.table ∧ (∀ d ∈ s.table.symbols, d.DistinctAliases) ∧
    s.table.SameAnswers u.table ∧
    (s.transcript question).map Entry.answer = [.ok (some (.arrayOf (.cls "Shop\\Item")))] := by
  intro s u question
  obtain ⟨-, -, hcalls, hblind⟩ :=
    registration_first_wins Symbol.ordersFirst Symbol.itemsFirst
  have hs : s.table.symbols =
      [.order "App\\Order" [("Ware", "Shop\\Item"), ("Tax", "Shop\\Tax")], Symbol.item.normal] := by
    decide +kernel
  have hu : u.table.symbols =
      [Symbol.item.normal, .order "App\\Order" [("Tax", "Shop\\Tax"), ("Ware", "Shop\\Item")]] := by
    decide +kernel
  have horder : Symbol.Alike (.order "App\\Order" [("Ware", "Shop\\Item"), ("Tax", "Shop\\Tax")])
      (.order "App\\Order" [("Tax", "Shop\\Tax"), ("Ware", "Shop\\Item")]) :=
    ⟨rfl, .swap _ _ _⟩
  have hitem : Symbol.item.normal.Alike Symbol.item.normal := ⟨rfl, .refl _⟩
  have halike : s.table.Alike u.table := by
    unfold Table.Alike
    rw [hs, hu]
    simp only [List.forall_mem_cons, List.exists_mem_cons_iff]
    exact ⟨⟨.inr (.inl horder), .inl hitem, nofun⟩, .inr (.inl hitem), .inl horder, nofun⟩
  have hd : ∀ d ∈ s.table.symbols, d.DistinctAliases := by
    rw [hs]
    simp only [List.forall_mem_cons, Symbol.DistinctAliases]
    exact ⟨by decide, by decide, nofun⟩
  obtain ⟨hanswers, hrun⟩ := hblind halike hd
  have hcall := hcalls [.order "\\App\\Order" [("Ware", "Shop\\Item"), ("Tax", "Shop\\Tax")]]
    (.ofInterface ⟨"App\\Order", [], [], []⟩) [.item] rfl
  rw [if_pos (by decide +kernel)] at hcall
  refine ⟨?_, ?_, hcall.1, halike, hd, hanswers, ?_⟩
  · unfold Table.names
    rw [hs]
    decide
  · unfold Table.names
    rw [hu]
    decide
  · rw [hrun]
    decide +kernel

end TypeHint
