import TypeHint.Proofs.Questions

/-!
# The types of members over a whole session

An `Action` registers a symbol, checks the table or asks a question, under any hierarchy.  A run
performs one action after another; its transcript keeps for each of them the session it met.  What
a question is answered is settled by the transcript: by the first type that was told for the same
slot, and by the declaration alone as long as none was.

* `Entry.types_after`, …        what one action changes
* `Accounted`                   what is known holds of the transcript, after every run
* `answers_settled_by_history`  answers, and how often something is computed, over every run
-/

namespace TypeHint

open Session

/-! ## runs -/

inductive Action where
  | register (symbol : Symbol)
  | check
  /-- without a hierarchy, that of the table at this moment is asked -/
  | ask (system : Option Hierarchy) (q : Question)

namespace Action

def perform : Action → SessionM (Option Ty)
  | register symbol => do
    Session.register symbol
    return none
  | check => do
    Session.check
    return none
  | ask system q => do q.ask (system.getD (← get).table.hierarchy)

def place (t : Table) : Action → Option Place
  | ask _ q => q.locate t
  | _ => none

theorem perform_register (symbol : Symbol) (s : Session) :
    (register symbol).perform s = match s.table.register symbol with
      | .ok t => (.ok none, { s.record [Table.registered symbol] with table := t })
      | .error e => (.error e, s) := by
  show (Session.register symbol >>= fun _ => pure none) s = _
  rw [bind_apply, register_apply]
  cases s.table.register symbol <;> rfl

theorem perform_check (s : Session) :
    check.perform s = (s.table.check.map fun _ => none, s) := by
  show (Session.check >>= fun _ => pure none) s = _
  rw [bind_apply, check_apply]
  cases s.table.check <;> rfl

theorem perform_ask (system : Option Hierarchy) (q : Question) (s : Session) :
    (ask system q).perform s = q.ask (system.getD s.table.hierarchy) s := rfl

end Action

/-- an action, and the session that it met -/
structure Entry where
  before : Session
  action : Action

namespace Entry

def answer (e : Entry) : Except SymbolError (Option Ty) := (e.action.perform e.before).1

def after (e : Entry) : Session := (e.action.perform e.before).2

def place (e : Entry) : Option Place := e.action.place e.before.table

def events (e : Entry) : List Event := e.after.log.drop e.before.log.length

def told (slot : Slot) (e : Entry) : Option Ty :=
  if e.place.map Place.slot = some slot then e.answer.toOption.join else none

end Entry

namespace Session

def run (s : Session) (actions : List Action) : Session :=
  actions.foldl (fun s a => (a.perform s).2) s

def transcript : Session → List Action → List Entry
  | _, [] => []
  | s, a :: actions => ⟨s, a⟩ :: transcript (a.perform s).2 actions

end Session

def firstTold (slot : Slot) (past : List Entry) : Option Ty := past.findSome? (Entry.told slot)

/-- the events of the visits to places that share a slot or a comment -/
def eventsAt {κ : Type} [DecidableEq κ] (key : Place → κ) (k : κ) (past : List Entry) :
    List Event :=
  (past.filter fun e => e.place.map key = some k).flatMap Entry.events

/-! ## one action -/

theorem Table.symbols_subset_of_register {t u : Table} {symbol : Symbol}
    (h : t.register symbol = .ok u) : t.symbols ⊆ u.symbols := by
  unfold Table.register at h
  dsimp only at h
  split at h
  · cases h
  · cases h
    exact List.subset_append_left _ _

namespace Entry

/-- what an action does that visits no place -/
structure Idle (e : Entry) : Prop where
  symbols : e.before.table.symbols ⊆ e.after.table.symbols
  types : e.after.types = e.before.types
  docsRead : e.after.docsRead = e.before.docsRead
  log : e.after.log = e.before.log ++ e.events
  typings : e.events.filter Event.isTyping = []
  readings : e.events.filter Event.isReading = []
  aliases : e.before.AliasesOnce → e.after.AliasesOnce
  untold : ∀ ty, e.answer ≠ .ok (some ty)

variable {e : Entry}

theorem events_eq {new : List Event} (h : e.after.log = e.before.log ++ new) : e.events = new := by
  unfold events
  rw [h, List.drop_left]

theorem idle_of_eq (h : e.after = e.before) (huntold : ∀ ty, e.answer ≠ .ok (some ty)) :
    e.Idle := by
  have hevents : e.events = [] := events_eq (by rw [h, List.append_nil])
  exact ⟨by rw [h]; exact List.Subset.refl _, by rw [h], by rw [h],
    by rw [hevents, h, List.append_nil], by rw [hevents]; rfl, by rw [hevents]; rfl,
    by rw [h]; exact id, huntold⟩

theorem idle_register (s : Session) (symbol : Symbol) : Entry.Idle ⟨s, .register symbol⟩ := by
  have hperform := Action.perform_register symbol s
  cases hr : s.table.register symbol with
  | error err =>
    rw [hr] at hperform
    exact idle_of_eq (congrArg Prod.snd hperform) fun ty h =>
      nomatch (congrArg Prod.fst hperform).symm.trans h
  | ok t =>
    rw [hr] at hperform
    have hafter : Entry.after ⟨s, .register symbol⟩ =
        { s.record [Table.registered symbol] with table := t } := congrArg Prod.snd hperform
    obtain ⟨new, hgrows, htyping, hreading⟩ := record_grows s [Table.registered symbol]
    have hlog : (Entry.after ⟨s, .register symbol⟩).log = s.log ++ new := hafter ▸ hgrows.log
    have hevents : Entry.events ⟨s, .register symbol⟩ = new := events_eq hlog
    refine ⟨?_, ?_, ?_, ?_, ?_, ?_, ?_, ?_⟩
    · rw [hafter]
      exact Table.symbols_subset_of_register hr
    · rw [hafter]
      exact record_types _ _
    · rw [hafter]
      exact record_docsRead _ _
    · rw [hevents]
      exact hlog
    · rw [hevents, htyping]
      unfold Table.registered
      split <;> rfl
    · rw [hevents, hreading]
      unfold Table.registered
      split <;> rfl
    · rw [hafter]
      exact hgrows.aliases
    · exact fun ty h => nomatch (congrArg Prod.fst hperform).symm.trans h

theorem idle_check (s : Session) : Entry.Idle ⟨s, .check⟩ := by
  have hperform := Action.perform_check s
  refine idle_of_eq (congrArg Prod.snd hperform) fun ty h => ?_
  have h := (congrArg Prod.fst hperform).symm.trans h
  cases hc : s.table.check <;> rw [hc] at h <;> nomatch h

/-- an action visits a place that is declared, or it is idle -/
theorem visits_or_idle (e : Entry) :
    (∃ h p, e.place = some p ∧ p.Declared e.before.table ∧
      p.Effect h e.before e.after e.answer e.events) ∨ e.place = none ∧ e.Idle := by
  obtain ⟨s, action⟩ := e
  cases action with
  | register symbol => exact .inr ⟨rfl, idle_register s symbol⟩
  | check => exact .inr ⟨rfl, idle_check s⟩
  | ask system q =>
    have hperform := Action.perform_ask system q s
    obtain ⟨p, hp, hdecl, hvisit⟩ | ⟨hnone, hafter, hanswer⟩ :=
      q.ask_cases (system.getD s.table.hierarchy) s
    · obtain ⟨events, heffect⟩ := p.visit_effect (system.getD s.table.hierarchy) s
      rw [← hvisit, ← hperform] at heffect
      refine .inl ⟨system.getD s.table.hierarchy, p, hp, hdecl, ?_⟩
      rw [events_eq (e := ⟨s, .ask system q⟩) heffect.grows.log]
      exact heffect
    · exact .inr ⟨hnone, idle_of_eq hafter hanswer⟩

theorem log_after (e : Entry) : e.after.log = e.before.log ++ e.events := by
  obtain ⟨h, p, -, -, heffect⟩ | ⟨-, hidle⟩ := e.visits_or_idle
  · exact heffect.grows.log
  · exact hidle.log

theorem symbols_subset (e : Entry) : e.before.table.symbols ⊆ e.after.table.symbols := by
  obtain ⟨h, p, -, -, heffect⟩ | ⟨-, hidle⟩ := e.visits_or_idle
  · rw [heffect.grows.table]
    exact List.Subset.refl _
  · exact hidle.symbols

theorem aliasesOnce_after (hs : e.before.AliasesOnce) : e.after.AliasesOnce := by
  obtain ⟨h, p, -, -, heffect⟩ | ⟨-, hidle⟩ := e.visits_or_idle
  · exact heffect.grows.aliases hs
  · exact hidle.aliases hs

theorem declared {p : Place} (hp : e.place = some p) : p.Declared e.before.table := by
  obtain ⟨h, p', hp', hdecl, -⟩ | ⟨hnone, -⟩ := e.visits_or_idle
  · cases hp.symm.trans hp'
    exact hdecl
  · cases hp.symm.trans hnone

theorem types_after (e : Entry) (slot : Slot) :
    e.after.types.lookup slot = (e.before.types.lookup slot).or (e.told slot) := by
  unfold told
  obtain ⟨h, p, hp, -, heffect⟩ | ⟨hnone, hidle⟩ := e.visits_or_idle
  · rw [heffect.outcome.lookup_eq slot, hp]
    simp
  · rw [hidle.types, hnone]
    simp

theorem docsRead_after (e : Entry) (d : Documented) :
    d ∈ e.after.docsRead ↔ d ∈ e.before.docsRead ∨ e.place.map Place.doc = some d := by
  obtain ⟨h, p, hp, -, heffect⟩ | ⟨hnone, hidle⟩ := e.visits_or_idle
  · rw [heffect.docsRead d, hp, or_comm]
    simp [eq_comm]
  · rw [hidle.docsRead, hnone]
    simp

/-- the event of a typing tells that the type in the slot was not known and now is -/
theorem countP_typing {slot : Slot} (hs : e.place.map Place.slot = some slot) :
    (if (e.before.types.lookup slot).isSome then 1 else 0) + e.events.countP Event.isTyping =
      if (e.after.types.lookup slot).isSome then 1 else 0 := by
  obtain ⟨h, p, hp, -, heffect⟩ | ⟨hnone, hidle⟩ := e.visits_or_idle
  · rw [hp] at hs
    cases hs
    rw [List.countP_eq_length_filter]
    exact heffect.outcome.length_typings
  · rw [hnone] at hs
    cases hs

theorem countP_reading {d : Documented} (hd : e.place.map Place.doc = some d) :
    (if d ∈ e.before.docsRead then 1 else 0) + e.events.countP Event.isReading = 1 := by
  obtain ⟨h, p, hp, -, heffect⟩ | ⟨hnone, hidle⟩ := e.visits_or_idle
  · rw [hp] at hd
    cases hd
    rw [List.countP_eq_length_filter, heffect.readings]
    split <;> rfl
  · rw [hnone] at hd
    cases hd

theorem idle_of_place_eq_none (hnone : e.place = none) : e.Idle := by
  obtain ⟨h, p, hp, -⟩ | ⟨-, hidle⟩ := e.visits_or_idle
  · cases hp.symm.trans hnone
  · exact hidle

theorem text_ne_none_of_told {slot : Slot} {ty : Ty} (htold : e.told slot = some ty) :
    ∃ p, e.place = some p ∧ p.slot = slot ∧ p.text ≠ none := by
  unfold told at htold
  split at htold
  · rename_i hs
    obtain ⟨h, p, hp, -, heffect⟩ | ⟨hnone, hidle⟩ := e.visits_or_idle
    · rw [hp] at hs
      cases hs
      refine ⟨p, hp, rfl, ?_⟩
      have hanswer : e.answer = .ok (some ty) := by
        cases ha : e.answer with
        | error err => rw [ha] at htold; cases htold
        | ok o => rw [ha] at htold; exact congrArg _ (by simpa [Except.toOption] using htold)
      exact (hanswer ▸ heffect.outcome).text_ne_none
    · rw [hnone] at hs
      cases hs
  · cases htold

end Entry

/-! ## what is known -/

section

variable {κ : Type} [DecidableEq κ]

theorem firstTold_append (slot : Slot) (past : List Entry) (e : Entry) :
    firstTold slot (past ++ [e]) = (firstTold slot past).or (e.told slot) := by
  unfold firstTold
  rw [List.findSome?_append]
  simp

theorem eventsAt_append (key : Place → κ) (k : κ) (past : List Entry) (e : Entry) :
    eventsAt key k (past ++ [e]) =
      eventsAt key k past ++ if e.place.map key = some k then e.events else [] := by
  unfold eventsAt
  rw [List.filter_append, List.flatMap_append, List.filter_singleton]
  by_cases hk : e.place.map key = some k
  · rw [if_pos hk, decide_eq_true hk]
    exact congrArg _ (List.flatMap_singleton _ _)
  · rw [if_neg hk, decide_eq_false hk]
    rfl

end

/-- what a session knows is what its transcript tells -/
structure Accounted (s : Session) (past : List Entry) : Prop where
  log : s.log = past.flatMap Entry.events
  places : ∀ e ∈ past, ∀ p, e.place = some p → p.Declared s.table
  types : ∀ slot, s.types.lookup slot = firstTold slot past
  docsRead : ∀ d, d ∈ s.docsRead ↔ ∃ e ∈ past, e.place.map Place.doc = some d
  typings : ∀ slot, (eventsAt Place.slot slot past).countP Event.isTyping =
    if (firstTold slot past).isSome then 1 else 0
  readings : ∀ d, (eventsAt Place.doc d past).countP Event.isReading =
    if d ∈ s.docsRead then 1 else 0
  aliases : s.AliasesOnce

namespace Accounted

theorem initial (t : Table) : Accounted (ofTable t) [] where
  log := rfl
  places := nofun
  types _ := rfl
  docsRead d := by simp [ofTable]
  typings _ := rfl
  readings _ := rfl
  aliases _ := rfl

variable {s : Session} {past : List Entry}

theorem step {e : Entry} (hs : Accounted e.before past) : Accounted e.after (past ++ [e]) where
  log := by
    rw [e.log_after, hs.log, List.flatMap_append, List.flatMap_singleton]
  places := by
    intro e' he' p hp
    rw [List.mem_append, List.mem_singleton] at he'
    obtain he' | rfl := he'
    · exact (hs.places e' he' p hp).mono e.symbols_subset
    · exact (Entry.declared hp).mono e'.symbols_subset
  types slot := by rw [e.types_after, hs.types, firstTold_append]
  docsRead d := by
    rw [e.docsRead_after, hs.docsRead]
    simp [or_and_right, exists_or]
  typings slot := by
    rw [eventsAt_append, List.countP_append, hs.typings, firstTold_append, ← hs.types,
      ← e.types_after]
    by_cases hplace : e.place.map Place.slot = some slot
    · rw [if_pos hplace]
      exact e.countP_typing hplace
    · have htold : e.told slot = none := if_neg hplace
      rw [if_neg hplace, e.types_after, htold, Option.or_none, List.countP_nil, Nat.add_zero]
  readings d := by
    rw [eventsAt_append, List.countP_append, hs.readings]
    by_cases hplace : e.place.map Place.doc = some d
    · rw [if_pos hplace, e.countP_reading hplace, if_pos ((e.docsRead_after d).mpr (.inr hplace))]
    · have hiff : d ∈ e.after.docsRead ↔ d ∈ e.before.docsRead := by
        rw [e.docsRead_after d]
        exact or_iff_left hplace
      simp only [if_neg hplace, hiff, List.countP_nil, Nat.add_zero]
  aliases := e.aliasesOnce_after hs.aliases

theorem run (hs : Accounted s past) (actions : List Action) :
    Accounted (s.run actions) (past ++ s.transcript actions) := by
  induction actions generalizing s past with
  | nil =>
    rw [Session.transcript, List.append_nil]
    exact hs
  | cons a actions ih =>
    have hstep : Accounted (a.perform s).2 (past ++ [⟨s, a⟩]) := step (e := ⟨s, a⟩) hs
    have hrun := ih hstep
    rwa [List.append_assoc, List.singleton_append] at hrun

/-- a question is answered by the first type that was told for the slot, or else by the text -/
theorem answer_eq {q : Question} {p : Place} (hs : Accounted s past)
    (hp : q.locate s.table = some p) (h : Hierarchy) :
    p.Declared s.table ∧ (q.ask h s).1 = p.answer h (firstTold p.slot past) := by
  obtain ⟨p', hp', hdecl, hvisit⟩ | ⟨hnone, -⟩ := q.ask_cases h s
  · cases hp.symm.trans hp'
    refine ⟨hdecl, ?_⟩
    obtain ⟨events, heffect⟩ := p.visit_effect h s
    rw [hvisit, ← hs.types]
    -- a type was told for this slot only at this place, where it has a text
    refine heffect.outcome.answer_eq fun hknown => ?_
    obtain ⟨ty, hty⟩ := Option.ne_none_iff_exists'.mp hknown
    obtain ⟨e, he, htold⟩ := List.exists_of_findSome?_eq_some ((hs.types p.slot).symm.trans hty)
    obtain ⟨p', hp', hslot, htext⟩ := Entry.text_ne_none_of_told htold
    cases Place.eq_of_slot (hs.places e he p' hp') hdecl hslot
    exact htext
  · cases hp.symm.trans hnone

/-- a question about another slot changes nothing -/
theorem answer_after_ask {q q' : Question} {p : Place} (hs : Accounted s past)
    (hp : q.locate s.table = some p)
    (hother : (q'.locate s.table).map Place.slot ≠ some p.slot) (h h' : Hierarchy) :
    (q.ask h (q'.ask h' s).2).1 = (q.ask h s).1 := by
  have hstep : Accounted (q'.ask h' s).2 (past ++ [⟨s, .ask (some h') q'⟩]) :=
    step (e := ⟨s, .ask (some h') q'⟩) hs
  have hlocate : q.locate (q'.ask h' s).2.table = some p := by rw [q'.table_ask, hp]
  have htold : Entry.told p.slot ⟨s, .ask (some h') q'⟩ = none := if_neg hother
  rw [(hstep.answer_eq hlocate h).2, (hs.answer_eq hp h).2, firstTold_append, htold,
    Option.or_none]

end Accounted

/-- a class whose method takes a list of things that are registered later -/
def Table.orders : Table where
  symbols := [.ofClass ⟨"Order", none, [], false, [("Ware", "Shop\\Item")],
    [⟨"add", ["$items"], some "/** @param Ware[] $items */"⟩], []⟩]
  nodup := by decide

/-- asks for the parameter, in vain until the other class is registered -/
def Action.lateItem : List Action :=
  [.ask none (.parameter "Order" "add" "items"),
    .register (.ofClass ⟨"Shop\\Item", none, [], false, [], [], []⟩), .check,
    .ask none (.parameterAt "Order" "ADD" 0)]

/-- **What was told first is told again.**  After any run, a question is answered by the first type
that was told for its slot, under whichever hierarchy that was.  As long as none was told, it is
answered by the text of the declaration under the hierarchy that is asked, so a failure settles
nothing.  A slot and a comment belong to one declaration throughout, and questions about other slots
change no answer.  A type is computed once, when it is first told; a comment is read once, when a
place with it is first visited; and no alias table is built twice.  The log holds nothing else of
this, and no type is told but at a place. -/
theorem answers_settled_by_history (t : Table) (actions : List Action) :
    let s := (ofTable t).run actions
    let past := (ofTable t).transcript actions
    (∀ (h : Hierarchy) (q : Question) (p : Place), q.locate s.table = some p →
      (q.ask h s).1 = p.answer h (firstTold p.slot past) ∧
      (p.owner ∈ s.table.symbols ∧ ∀ e ∈ past, ∀ p', e.place = some p' →
        (p'.slot = p.slot → p' = p) ∧
        (p'.doc = p.doc → p'.owner = p.owner ∧ p'.comment = p.comment)) ∧
      ∀ (h' : Hierarchy) (q' : Question), (q'.locate s.table).map Place.slot ≠ some p.slot →
        (q.ask h (q'.ask h' s).2).1 = (q.ask h s).1) ∧
    (∀ slot, (eventsAt Place.slot slot past).countP Event.isTyping =
      if (firstTold slot past).isSome then 1 else 0) ∧
    (∀ d, (eventsAt Place.doc d past).countP Event.isReading =
      if ∃ e ∈ past, e.place.map Place.doc = some d then 1 else 0) ∧
    (∀ n, s.log.countP (Event.builds n) ≤ 1) ∧
    s.log = past.flatMap Entry.events ∧
    ∀ e ∈ past, e.place = none → (∀ ty, e.answer ≠ .ok (some ty)) ∧
      e.events.filter Event.isTyping = [] ∧ e.events.filter Event.isReading = [] := by
  intro s past
  have hs : Accounted s past := (Accounted.initial t).run actions
  refine ⟨fun h q p hp => ?_, hs.typings, fun d => ?_, fun n => ?_, hs.log, fun e _ hnone => ?_⟩
  · obtain ⟨hdecl, hanswer⟩ := hs.answer_eq hp h
    refine ⟨hanswer, ⟨hdecl.mem_symbols, ?_⟩, ?_⟩
    · intro e he p' hp'
      have hdecl' : p'.Declared s.table := hs.places e he p' hp'
      exact ⟨Place.eq_of_slot hdecl' hdecl, Place.eq_of_doc hdecl' hdecl⟩
    · intro h' q' hother
      exact hs.answer_after_ask hp hother h h'
  · rw [hs.readings]
    exact if_congr (hs.docsRead d) rfl rfl
  · rw [hs.aliases n]
    split <;> omega
  · have hidle := Entry.idle_of_place_eq_none hnone
    exact ⟨hidle.untold, hidle.typings, hidle.readings⟩

/-- the first question fails, the second tells the type, and then it is told even where no class is
known -/
theorem answers_settled_by_history_of_late_class :
    let q := Question.parameter "Order" "add" "$items"
    let s := (ofTable Table.orders).run Action.lateItem
    let past := (ofTable Table.orders).transcript Action.lateItem
    past.map (·.answer.toOption.join.isSome) = [false, false, false, true] ∧
    (q.ask Hierarchy.empty (ofTable Table.orders)).1.toOption = none ∧
    (q.ask Hierarchy.empty s).1 = .ok (some (.arrayOf (.cls "Shop\\Item"))) ∧
    s.log.countP (Event.builds "Order") ≤ 1 := by
  intro q s past
  obtain ⟨hask, -, -, haliases, -⟩ :=
    answers_settled_by_history Table.orders Action.lateItem
  have hslot : (q.locate s.table).map Place.slot = some (.parameter "Order" "add" 0) := by
    decide +kernel
  have htold : firstTold (.parameter "Order" "add" 0) past =
      some (.arrayOf (.cls "Shop\\Item")) := by
    decide +kernel
  obtain ⟨p, hp, hpslot⟩ := Option.map_eq_some_iff.mp hslot
  refine ⟨by decide +kernel, by decide +kernel, ?_, haliases "Order"⟩
  rw [(hask Hierarchy.empty q p hp).1, hpslot, htold]
  rfl

end TypeHint
