import TypeHint.Proofs.HintEvents
import TypeHint.Session

/-!
# The steps of a session

What each step of a session answers and what it leaves, as an equation.

* `Session.bind_apply`, …     a sequence of steps, run in a session
* `Session.AliasesOnce`       no alias table was built twice; recording keeps this
* `Session.record_grows`      recorded events are added to the log
* `Session.readDoc_effect`    the comment of a declaration
* `Session.slotType_effect`   the type in a slot
* `Session.register_apply`    registration
-/

namespace TypeHint

namespace Event

/-- the type of a member was computed -/
def isTyping : Event → Bool
  | .memberTyped .. => true
  | _ => false

/-- a documentation comment was read -/
def isReading : Event → Bool
  | .docCommentRead _ => true
  | _ => false

/-- the alias table of `n` was built -/
def builds (n : String) : Event → Bool
  | .aliasTableBuilt declaring _ => declaring == n
  | _ => false

theorem not_isTyping_of_ofHint {e : Event} (he : e.ofHint = true) : e.isTyping = false := by
  cases e <;> first | rfl | cases he

theorem not_isReading_of_ofHint {e : Event} (he : e.ofHint = true) : e.isReading = false := by
  cases e <;> first | rfl | cases he

end Event

theorem Symbol.quiet_resolver (s : Symbol) : Resolver.Quiet (some s.resolver) := by
  intro resolve hr short
  cases hr
  unfold resolver
  dsimp only
  split
  · exact Traced.tells_fail _
  · exact (hints_emit rfl).bind fun _ => Traced.tells_pure _

/-- reading a comment tells only of tags that count for nothing -/
theorem DocComment.not_typing_or_reading {comment : String} {e : Event}
    (he : e ∈ DocComment.events comment) : e.isTyping = false ∧ e.isReading = false := by
  obtain ⟨tag, -, he⟩ := List.mem_flatMap.mp he
  cases tag <;> simp only [Tag.events, List.mem_singleton, List.not_mem_nil] at he
  all_goals
    subst he
    exact ⟨rfl, rfl⟩

theorem DocComment.filter_events (text : Option String) :
    (text.elim [] DocComment.events).filter Event.isTyping = [] ∧
      (text.elim [] DocComment.events).filter Event.isReading = [] := by
  cases text with
  | none => exact ⟨rfl, rfl⟩
  | some comment =>
    simp only [Option.elim_some, List.filter_eq_nil_iff, Bool.not_eq_true]
    exact ⟨fun _ he => (not_typing_or_reading he).1, fun _ he => (not_typing_or_reading he).2⟩

namespace Session

variable {α β : Type} {s : Session}

/-! ## sequences -/

theorem bind_apply (x : SessionM α) (f : α → SessionM β) (s : Session) :
    (x >>= f) s = match x s with
      | (.ok a, s') => f a s'
      | (.error e, s') => (.error e, s') := by
  show ExceptT.bindCont f (x s).1 (x s).2 = _
  cases x s with
  | mk r s' => cases r <;> rfl

theorem get_apply (s : Session) : (get : SessionM Session) s = (.ok s, s) := rfl

theorem modify_apply (f : Session → Session) (s : Session) :
    (modify f : SessionM PUnit) s = (.ok ⟨⟩, f s) := rfl

theorem ofExcept_apply (r : Except SymbolError α) (s : Session) : ofExcept r s = (r, s) := by
  cases r <;> rfl

theorem follow_apply {ε : Type} (wrap : ε → SymbolError) (x : Traced ε α) (s : Session) :
    follow wrap x s = (x.result.mapError wrap, s.record x.log) := by
  unfold follow
  rw [bind_apply, modify_apply]
  cases x.result <;> rfl

/-! ## recording -/

theorem recordOne_keeps (s : Session) (e : Event) :
    (s.recordOne e).table = s.table ∧ (s.recordOne e).types = s.types ∧
      (s.recordOne e).docsRead = s.docsRead := by
  unfold recordOne
  split
  · split <;> exact ⟨rfl, rfl, rfl⟩
  · exact ⟨rfl, rfl, rfl⟩

theorem record_keeps (s : Session) (es : List Event) :
    (s.record es).table = s.table ∧ (s.record es).types = s.types ∧
      (s.record es).docsRead = s.docsRead := by
  induction es generalizing s with
  | nil => exact ⟨rfl, rfl, rfl⟩
  | cons e es ih =>
    obtain ⟨ht, hty, hd⟩ := ih (s.recordOne e)
    obtain ⟨ht', hty', hd'⟩ := recordOne_keeps s e
    exact ⟨ht.trans ht', hty.trans hty', hd.trans hd'⟩

@[simp] theorem record_table (s : Session) (es : List Event) : (s.record es).table = s.table :=
  (record_keeps s es).1

@[simp] theorem record_types (s : Session) (es : List Event) : (s.record es).types = s.types :=
  (record_keeps s es).2.1

@[simp] theorem record_docsRead (s : Session) (es : List Event) :
    (s.record es).docsRead = s.docsRead :=
  (record_keeps s es).2.2

/-- an event is added to the log, unless it tells of an alias table that was built before -/
theorem recordOne_log (s : Session) (e : Event) : ∃ new, (s.recordOne e).log = s.log ++ new ∧
    ∀ p : Event → Bool, (∀ n k, p (.aliasTableBuilt n k) = false) → new.filter p = [e].filter p := by
  unfold recordOne
  split
  · rename_i declaring imports
    split
    · exact ⟨[], (List.append_nil _).symm, fun p hp => by simp [hp]⟩
    · exact ⟨_, rfl, fun _ _ => rfl⟩
  · exact ⟨_, rfl, fun _ _ => rfl⟩

theorem exists_record_log (s : Session) (es : List Event) :
    ∃ new, (s.record es).log = s.log ++ new ∧
      ∀ p : Event → Bool, (∀ n k, p (.aliasTableBuilt n k) = false) →
        new.filter p = es.filter p := by
  induction es generalizing s with
  | nil => exact ⟨[], (List.append_nil _).symm, fun _ _ => rfl⟩
  | cons e es ih =>
    obtain ⟨one, hone, hfilter⟩ := recordOne_log s e
    obtain ⟨rest, hrest, hfilters⟩ := ih (s.recordOne e)
    refine ⟨one ++ rest, ?_, fun p hp => ?_⟩
    · show ((s.recordOne e).record es).log = _
      rw [hrest, hone, List.append_assoc]
    · rw [List.filter_append, hfilter p hp, hfilters p hp, ← List.filter_append,
        List.singleton_append]

/-- every alias table that counts as built was built once, and no other was built -/
def AliasesOnce (s : Session) : Prop :=
  ∀ n, s.log.countP (Event.builds n) = if n ∈ s.aliasTables then 1 else 0

theorem AliasesOnce.recordOne (hs : s.AliasesOnce) (e : Event) : (s.recordOne e).AliasesOnce := by
  unfold Session.recordOne
  split
  · rename_i declaring imports
    split
    · exact hs
    · rename_i hnew
      intro n
      have hn := hs n
      show (s.log ++ _).countP _ = _
      rw [List.countP_append, hn]
      by_cases e : n = declaring
      · subst e
        simp [Event.builds, hnew]
      · simp [Event.builds, e, Ne.symm e]
  · rename_i hno
    intro n
    have hb : e.builds n = false := by
      cases e <;> first | rfl | exact absurd rfl (hno _ _)
    show (s.log ++ [e]).countP _ = _
    simp [hs n, hb]

theorem AliasesOnce.record (hs : s.AliasesOnce) (es : List Event) : (s.record es).AliasesOnce := by
  induction es generalizing s with
  | nil => exact hs
  | cons e es ih => exact ih (hs.recordOne e)

/-- the same table, and more in the log -/
structure Grows (s s' : Session) (new : List Event) : Prop where
  table : s'.table = s.table
  log : s'.log = s.log ++ new
  aliases : s.AliasesOnce → s'.AliasesOnce

theorem Grows.refl (s : Session) : s.Grows s [] :=
  ⟨rfl, (List.append_nil _).symm, id⟩

theorem Grows.trans {s' s'' : Session} {new more : List Event} (h : s.Grows s' new)
    (h' : s'.Grows s'' more) : s.Grows s'' (new ++ more) where
  table := h'.table.trans h.table
  log := by rw [h'.log, h.log, List.append_assoc]
  aliases := h'.aliases ∘ h.aliases

/-- what is recorded of typings and readings is what happened -/
theorem record_grows (s : Session) (es : List Event) : ∃ new, s.Grows (s.record es) new ∧
    new.filter Event.isTyping = es.filter Event.isTyping ∧
      new.filter Event.isReading = es.filter Event.isReading := by
  obtain ⟨new, hlog, hfilter⟩ := exists_record_log s es
  exact ⟨new, ⟨record_table s es, hlog, fun hs => hs.record es⟩, hfilter _ fun _ _ => rfl,
    hfilter _ fun _ _ => rfl⟩

theorem filter_of_hints {ε : Type} {x : Traced ε α} (hx : Hints x) :
    x.log.filter Event.isTyping = [] ∧ x.log.filter Event.isReading = [] := by
  simp only [List.filter_eq_nil_iff, Bool.not_eq_true]
  exact ⟨fun e he => Event.not_isTyping_of_ofHint (hx e he),
    fun e he => Event.not_isReading_of_ofHint (hx e he)⟩

/-! ## one step -/

theorem readDoc_apply (key : Documented) (label : String) (text : Option String) (s : Session) :
    readDoc key label text s = (.ok (text.elim .empty DocComment.ofText),
      if key ∈ s.docsRead then s
      else { s with docsRead := key :: s.docsRead }.record
        (.docCommentRead label :: text.elim [] DocComment.events)) := by
  unfold readDoc
  rw [bind_apply, get_apply]
  dsimp only
  by_cases h : key ∈ s.docsRead
  · simp only [h, not_true_eq_false, if_false, if_true]
    rfl
  · simp only [h, not_false_eq_true, if_false, if_true]
    rfl

/-- a comment is read unless it was read before -/
theorem readDoc_effect (key : Documented) (label : String) (text : Option String) (s : Session) :
    ∃ s' new, readDoc key label text s = (.ok (text.elim .empty DocComment.ofText), s') ∧
      s.Grows s' new ∧ s'.types = s.types ∧ (∀ d, d ∈ s'.docsRead ↔ d = key ∨ d ∈ s.docsRead) ∧
      new.filter Event.isTyping = [] ∧
      new.filter Event.isReading = if key ∈ s.docsRead then [] else [.docCommentRead label] := by
  rw [readDoc_apply]
  by_cases hkey : key ∈ s.docsRead
  · rw [if_pos hkey, if_pos hkey]
    refine ⟨s, [], rfl, .refl s, rfl, fun d => ?_, rfl, rfl⟩
    exact ⟨.inr, fun hd => hd.elim (· ▸ hkey) id⟩
  · rw [if_neg hkey, if_neg hkey]
    obtain ⟨new, hgrows, htyping, hreading⟩ := record_grows { s with docsRead := key :: s.docsRead }
      (.docCommentRead label :: text.elim [] DocComment.events)
    refine ⟨_, new, rfl, ⟨hgrows.table, hgrows.log, hgrows.aliases⟩, record_types _ _, ?_, ?_, ?_⟩
    · intro d
      rw [record_docsRead]
      exact List.mem_cons
    · exact htyping.trans (DocComment.filter_events text).1
    · exact hreading.trans (congrArg _ (DocComment.filter_events text).2)

theorem slotType_apply (h : Hierarchy) (slot : Slot) (owner : Symbol) (text : String) (s : Session) :
    slotType h slot owner text s =
      match s.types.lookup slot with
      | some t => (.ok t, s)
      | none =>
        let x := Ty.ofText h (some owner.resolver) text
        match x.result with
        | .ok t => (.ok t, { (s.record x.log).record [.memberTyped owner.name text t.name] with
            types := (slot, t) :: s.types })
        | .error e => (.error (.type e), s.record x.log) := by
  unfold slotType
  rw [bind_apply, get_apply]
  dsimp only
  cases s.types.lookup slot with
  | some t => rfl
  | none =>
    dsimp only
    rw [bind_apply, follow_apply]
    cases (Ty.ofText h (some owner.resolver) text).result with
    | error e => rfl
    | ok t =>
      have hkept : ((s.record (Ty.ofText h (some owner.resolver) text).log).record
          [.memberTyped owner.name text t.name]).types = s.types := by
        rw [record_types, record_types]
      rw [← hkept]
      rfl

/-- What comes of asking for the type in a slot: it is known; it is computed and kept; or it cannot
be told, and nothing is kept.  `typings` are the events of a type that was computed. -/
inductive Told (h : Hierarchy) (slot : Slot) (owner : Symbol) (text : String)
    (types types' : List (Slot × Ty)) : Except SymbolError Ty → (typings : List Event) → Prop
  | known {ty : Ty} : types.lookup slot = some ty → types' = types →
      Told h slot owner text types types' (.ok ty) []
  | computed {ty : Ty} : types.lookup slot = none →
      (Ty.ofText h (some owner.resolver) text).result = .ok ty → types' = (slot, ty) :: types →
      Told h slot owner text types types' (.ok ty) [.memberTyped owner.name text ty.name]
  | failed {e : HintError} : types.lookup slot = none →
      (Ty.ofText h (some owner.resolver) text).result = .error e → types' = types →
      Told h slot owner text types types' (.error (.type e)) []

theorem slotType_effect (h : Hierarchy) (slot : Slot) (owner : Symbol) (text : String)
    (s : Session) : ∃ answer s' new, slotType h slot owner text s = (answer, s') ∧
      s.Grows s' new ∧ s'.docsRead = s.docsRead ∧ new.filter Event.isReading = [] ∧
      Told h slot owner text s.types s'.types answer (new.filter Event.isTyping) := by
  rw [slotType_apply]
  cases hk : s.types.lookup slot with
  | some ty => exact ⟨.ok ty, s, [], rfl, .refl s, rfl, rfl, .known hk rfl⟩
  | none =>
    dsimp only
    -- the meaning of a text tells neither of readings nor of typings
    obtain ⟨hno, hno'⟩ := filter_of_hints (Ty.hints_ofText (h := h) owner.quiet_resolver text)
    obtain ⟨new, hgrows, htyping, hreading⟩ :=
      record_grows s (Ty.ofText h (some owner.resolver) text).log
    cases hm : (Ty.ofText h (some owner.resolver) text).result with
    | error e =>
      refine ⟨_, _, new, rfl, hgrows, record_docsRead _ _, hreading.trans hno', ?_⟩
      rw [htyping, hno]
      exact .failed hk hm (record_types _ _)
    | ok ty =>
      obtain ⟨last, hlast, hlastTyping, hlastReading⟩ := record_grows
        (s.record (Ty.ofText h (some owner.resolver) text).log)
        [.memberTyped owner.name text ty.name]
      have hall := hgrows.trans hlast
      refine ⟨_, _, new ++ last, rfl, ⟨hall.table, hall.log, hall.aliases⟩, ?_, ?_, ?_⟩
      · exact (record_docsRead _ _).trans (record_docsRead _ _)
      · rw [List.filter_append, hreading, hno', hlastReading]
        rfl
      · rw [List.filter_append, htyping, hno, hlastTyping]
        exact .computed hk hm rfl

theorem register_apply (symbol : Symbol) (s : Session) :
    Session.register symbol s =
      match s.table.register symbol with
      | .ok t => (.ok (), { s.record [Table.registered symbol] with table := t })
      | .error e => (.error e, s) := by
  unfold Session.register
  rw [bind_apply, get_apply]
  dsimp only
  rw [bind_apply, follow_apply]
  unfold Table.registerTraced
  cases s.table.register symbol <;> rfl

theorem check_apply (s : Session) : Session.check s = (s.table.check, s) := by
  unfold Session.check
  rw [bind_apply, get_apply]
  exact ofExcept_apply _ s

end Session

end TypeHint
