import TypeHint.Proofs.Canonical
import TypeHint.Proofs.Overriding
import TypeHint.Proofs.SessionSteps

/-!
# Questions for the types of members

A `Question` names a member by the type in which it is looked for: a parameter by its name or its
place, a result, or a property.  It leads to a `Place`: the declaration that is found, whose comment
says how the type is written.  Asking visits that place: the comment is read, and the type in the
slot is computed unless it is known.

* `Place.text`           how the type is written, as a function of the declared comment
* `Place.eq_of_slot`     in one table, a slot belongs to one place
* `Place.eq_of_doc`      and a comment to one declaration
* `Place.visit_effect`   all that a visit can do
* `Question.ask_cases`   asking is visiting the place that is found, if there is one
-/

namespace TypeHint

open Text Session

/-! ## declarations that are found -/

namespace Table

variable {t : Table} {a name : String}

/-- the method is the first of its name in its owner, which is a symbol of the table -/
def HasMethod (t : Table) (m : Member Method) : Prop :=
  m.owner ∈ t.symbols ∧
    m.owner.methods.find? (foldCase ·.name == foldCase m.decl.name) = some m.decl

def HasProperty (t : Table) (p : Member Property) : Prop :=
  p.owner ∈ t.symbols ∧ p.owner.properties.find? (·.bareName == p.decl.bareName) = some p.decl

theorem hasMethod_of_method {m : Member Method} (hm : t.method a name = .ok m) : t.HasMethod m := by
  obtain ⟨⟨ho, hfind⟩, -⟩ := method_eq_ok hm
  have hname : foldCase m.decl.name = foldCase name := by simpa using List.find?_some hfind
  exact ⟨ho, hname ▸ hfind⟩

theorem hasProperty_of_mem_properties {p : Member Property} {ps : List (Member Property)}
    (hps : t.properties a = .ok ps) (hp : p ∈ ps) : t.HasProperty p := by
  unfold properties at hps
  obtain ⟨-, -, hps⟩ := bind_eq_ok.mp hps
  obtain ⟨order, -, hps⟩ := bind_eq_ok.mp hps
  cases hps
  have hfind := find?_of_mem_freshBy hp
  rw [List.find?_flatMap] at hfind
  obtain ⟨front, d, back, -, hd, -⟩ := List.findSome?_eq_some_iff.mp hfind
  unfold declaredProperties at hd
  cases e : t.find? d with
  | none => rw [e] at hd; cases hd
  | some s =>
    rw [e] at hd
    change (s.properties.map (⟨s, ·⟩)).find? _ = some p at hd
    rw [List.find?_map, Option.map_eq_some_iff] at hd
    obtain ⟨x, hx, rfl⟩ := hd
    exact ⟨(find?_eq_some_iff.mp e).1, hx⟩

theorem hasProperty_of_property {p : Member Property} (hp : t.property a name = .ok p) :
    t.HasProperty p := by
  unfold property at hp
  obtain ⟨ps, hps, hp⟩ := bind_eq_ok.mp hp
  split at hp
  · rename_i p' hfind
    cases hp
    exact hasProperty_of_mem_properties hps (List.mem_of_find?_eq_some hfind)
  · cases hp

theorem HasMethod.eq {m n : Member Method} (hm : t.HasMethod m) (hn : t.HasMethod n)
    (howner : m.owner.name = n.owner.name) (hname : m.decl.name = n.decl.name) : m = n := by
  have ho : m.owner = n.owner := eq_of_name_eq hm.1 hn.1 howner
  have hfind := hm.2
  rw [ho, hname, hn.2] at hfind
  cases m
  cases n
  cases ho
  cases hfind
  rfl

theorem HasProperty.eq {p q : Member Property} (hp : t.HasProperty p) (hq : t.HasProperty q)
    (howner : p.owner.name = q.owner.name) (hname : p.decl.bareName = q.decl.bareName) : p = q := by
  have ho : p.owner = q.owner := eq_of_name_eq hp.1 hq.1 howner
  have hfind := hp.2
  rw [ho, hname, hq.2] at hfind
  cases p
  cases q
  cases ho
  cases hfind
  rfl

end Table

/-! ## places -/

/-- where a member with a type is declared -/
inductive Place where
  | parameter (m : Member Method) (name : String) (index : Nat)
  | result (m : Member Method)
  | property (p : Member Property)

def commentOf (doc : Option String) : DocComment := doc.elim .empty DocComment.ofText

namespace Place

def owner : Place → Symbol
  | parameter m _ _ => m.owner
  | result m => m.owner
  | property p => p.owner

def comment : Place → Option String
  | parameter m _ _ => m.decl.doc
  | result m => m.decl.doc
  | property p => p.decl.doc

def doc : Place → Documented
  | parameter m _ _ => .method m.owner.name m.decl.name
  | result m => .method m.owner.name m.decl.name
  | property p => .property p.owner.name p.decl.bareName

/-- what the comment is called in the log -/
def label : Place → String
  | parameter m _ _ => m.owner.name ++ "::" ++ m.decl.name
  | result m => m.owner.name ++ "::" ++ m.decl.name
  | property p => p.owner.name ++ "::$" ++ p.decl.name

def slot : Place → Slot
  | parameter m _ index => parameterSlot m index
  | result m => .result m.owner.name m.decl.name
  | property p => .property p.owner.name p.decl.bareName

/-- how the type is written in a comment; a result without a tag has no type -/
def textIn (comment : Option String) : Place → Option String
  | parameter _ name _ => some (parameterText (commentOf comment) name).1
  | result _ => (commentOf comment).result.map TypeTag.type
  | property _ => some ((commentOf comment).var.elim untyped TypeTag.type)

def text (p : Place) : Option String := p.textIn p.comment

def Declared (t : Table) : Place → Prop
  | parameter m name index => t.HasMethod m ∧ m.decl.parameterNames[index]? = some name
  | result m => t.HasMethod m
  | property p => t.HasProperty p

variable {t u : Table} {p q : Place}

theorem Declared.mem_symbols (hp : p.Declared t) : p.owner ∈ t.symbols := by
  cases p with
  | parameter m name index => exact hp.1.1
  | result m => exact hp.1
  | property p => exact hp.1

theorem Declared.mono (hp : p.Declared t) (hsub : t.symbols ⊆ u.symbols) : p.Declared u := by
  cases p with
  | parameter m name index => exact ⟨⟨hsub hp.1.1, hp.1.2⟩, hp.2⟩
  | result m => exact ⟨hsub hp.1, hp.2⟩
  | property p => exact ⟨hsub hp.1, hp.2⟩

theorem eq_of_slot (hp : p.Declared t) (hq : q.Declared t) (h : p.slot = q.slot) : p = q := by
  cases p <;> cases q <;> injection h
  case parameter.parameter howner hname hindex =>
    obtain rfl := hp.1.eq hq.1 howner hname
    subst hindex
    cases hp.2.symm.trans hq.2
    rfl
  case result.result howner hname => rw [Table.HasMethod.eq hp hq howner hname]
  case property.property howner hname => rw [Table.HasProperty.eq hp hq howner hname]

theorem eq_of_doc (hp : p.Declared t) (hq : q.Declared t) (h : p.doc = q.doc) :
    p.owner = q.owner ∧ p.comment = q.comment := by
  cases p <;> cases q <;> injection h
  case parameter.parameter howner hname =>
    rw [hp.1.eq hq.1 howner hname]
    exact ⟨rfl, rfl⟩
  case parameter.result howner hname =>
    rw [hp.1.eq hq howner hname]
    exact ⟨rfl, rfl⟩
  case result.parameter howner hname =>
    rw [Table.HasMethod.eq hp hq.1 howner hname]
    exact ⟨rfl, rfl⟩
  case result.result howner hname =>
    rw [Table.HasMethod.eq hp hq howner hname]
    exact ⟨rfl, rfl⟩
  case property.property howner hname =>
    rw [Table.HasProperty.eq hp hq howner hname]
    exact ⟨rfl, rfl⟩

/-! ## visits -/

/-- reads the comment, then tells the type in the slot -/
def visit (h : Hierarchy) (p : Place) : SessionM (Option Ty) := do
  let _ ← readDoc p.doc p.label p.comment
  match p.text with
  | none => return none
  | some text => return some (← slotType h p.slot p.owner text)

/-- what comes of a visit; `typings` are the events of a type that was computed -/
inductive Outcome (h : Hierarchy) (p : Place) (types types' : List (Slot × Ty)) :
    Except SymbolError (Option Ty) → (typings : List Event) → Prop
  | untyped : p.text = none → types' = types → Outcome h p types types' (.ok none) []
  | told {text : String} {answer : Except SymbolError Ty} {typings : List Event} :
      p.text = some text → Told h p.slot p.owner text types types' answer typings →
      Outcome h p types types' (answer.map some) typings

/-- the answer at a place for whose slot `known` was told before -/
def answer (h : Hierarchy) (p : Place) (known : Option Ty) : Except SymbolError (Option Ty) :=
  match known, p.text with
  | some ty, _ => .ok (some ty)
  | none, none => .ok none
  | none, some text =>
    ((Ty.ofText h (some p.owner.resolver) text).result.mapError .type).map some

namespace Outcome

variable {h : Hierarchy} {types types' : List (Slot × Ty)}
  {answer : Except SymbolError (Option Ty)} {typings : List Event}

/-- what is told is kept, and nothing else, unless a type was known -/
theorem lookup_eq (ho : Outcome h p types types' answer typings) (slot : Slot) :
    types'.lookup slot =
      (types.lookup slot).or (if p.slot = slot then answer.toOption.join else none) := by
  cases ho with
  | untyped _ htypes => simp [htypes, Except.toOption]
  | told _ htold =>
    cases htold with
    | known hk htypes =>
      by_cases hs : p.slot = slot
      · subst hs
        simp [htypes, hk]
      · simp [htypes, hs]
    | computed hk _ htypes =>
      by_cases hs : p.slot = slot
      · subst hs
        simp [htypes, hk, Except.toOption, Except.map]
      · have hbeq : (slot == p.slot) = false := beq_false_of_ne (Ne.symm hs)
        simp [htypes, hs, List.lookup_cons, hbeq]
    | failed _ _ htypes => simp [htypes, Except.toOption, Except.map]

theorem length_typings (ho : Outcome h p types types' answer typings) :
    (if (types.lookup p.slot).isSome then 1 else 0) + typings.length =
      if (types'.lookup p.slot).isSome then 1 else 0 := by
  cases ho with
  | untyped _ htypes => rw [htypes, List.length_nil, Nat.add_zero]
  | told _ htold =>
    cases htold with
    | known _ htypes => rw [htypes, List.length_nil, Nat.add_zero]
    | computed hk _ htypes => simp [htypes, hk]
    | failed _ _ htypes => rw [htypes, List.length_nil, Nat.add_zero]

theorem text_ne_none {ty : Ty} (ho : Outcome h p types types' (.ok (some ty)) typings) :
    p.text ≠ none := by
  generalize ha : Except.ok (some ty) = answer at ho
  cases ho with
  | untyped => cases ha
  | told htext => exact htext ▸ nofun

theorem answer_eq (ho : Outcome h p types types' answer typings)
    (htext : types.lookup p.slot ≠ none → p.text ≠ none) :
    answer = p.answer h (types.lookup p.slot) := by
  unfold Place.answer
  cases ho with
  | untyped hno htypes =>
    have hnew : types.lookup p.slot = none := by
      by_contra hk
      exact htext hk hno
    rw [hnew, hno]
  | told hsome htold =>
    cases htold with
    | known hk => rw [hk]; rfl
    | computed hk hm => rw [hk, hsome]; dsimp only; rw [hm]; rfl
    | failed hk hm => rw [hk, hsome]; dsimp only; rw [hm]; rfl

end Outcome

structure Effect (h : Hierarchy) (p : Place) (s s' : Session)
    (answer : Except SymbolError (Option Ty)) (events : List Event) : Prop where
  grows : s.Grows s' events
  docsRead : ∀ d, d ∈ s'.docsRead ↔ d = p.doc ∨ d ∈ s.docsRead
  readings : events.filter Event.isReading =
    if p.doc ∈ s.docsRead then [] else [.docCommentRead p.label]
  outcome : Outcome h p s.types s'.types answer (events.filter Event.isTyping)

theorem visit_effect (h : Hierarchy) (p : Place) (s : Session) :
    ∃ events, p.Effect h s (p.visit h s).2 (p.visit h s).1 events := by
  obtain ⟨s₁, read, hread, hgrows, htypes, hdocs, htyping, hreading⟩ :=
    readDoc_effect p.doc p.label p.comment s
  unfold visit
  rw [bind_apply, hread]
  dsimp only
  cases htext : p.text with
  | none => exact ⟨read, hgrows, hdocs, hreading, htyping ▸ .untyped htext htypes⟩
  | some text =>
    obtain ⟨answer, s₂, new, htold, hgrows', hdocs', hreading', houtcome⟩ :=
      slotType_effect h p.slot p.owner text s₁
    have hvisit : (do return some (← slotType h p.slot p.owner text) : SessionM (Option Ty)) s₁ =
        (answer.map some, s₂) := by
      rw [bind_apply, htold]
      cases answer <;> rfl
    dsimp only
    rw [hvisit]
    refine ⟨read ++ new, hgrows.trans hgrows', ?_, ?_, ?_⟩
    · rw [hdocs']
      exact hdocs
    · rw [List.filter_append, hreading, hreading', List.append_nil]
    · rw [List.filter_append, htyping]
      exact .told htext (htypes ▸ houtcome)

end Place

/-! ## questions -/

inductive Question where
  | parameter (type method name : String)
  | parameterAt (type method : String) (index : Nat)
  | result (type method : String)
  | property (type name : String)

namespace Question

/-- asks for a type; there is none for a result without a tag and beyond the last parameter -/
def ask (h : Hierarchy) : Question → SessionM (Option Ty)
  | parameter type method name => do
    let m ← Session.ofExcept ((← get).table.method type method)
    return some (← parameterType h m name).2
  | parameterAt type method index => do
    let m ← Session.ofExcept ((← get).table.method type method)
    match m.decl.parameterNames[index]? with
    | none => return none
    | some name =>
      let doc ← methodDoc m
      return some (← reportParameter h id m doc (name, index)).2.type
  | result type method => do
    let m ← Session.ofExcept ((← get).table.method type method)
    let doc ← methodDoc m
    return (← reportResult h id m doc).map SlotReport.type
  | property type name => do
    let p ← Session.ofExcept ((← get).table.property type name)
    return some (← reportProperty h id p).info.type

def locate (t : Table) : Question → Option Place
  | parameter type method name => do
    let m ← (t.method type method).toOption
    let p ← (m.parameter name).toOption
    return .parameter m p.1 p.2
  | parameterAt type method index => do
    let m ← (t.method type method).toOption
    let name ← m.decl.parameterNames[index]?
    return .parameter m name index
  | result type method => do return .result (← (t.method type method).toOption)
  | property type name => do return .property (← (t.property type name).toOption)

end Question

section

variable {α β : Type} {h : Hierarchy}

/-- what a comment says does not depend on the session -/
theorem readDoc_bind (key : Documented) (label : String) (text : Option String)
    (f : DocComment → SessionM α) :
    readDoc key label text >>= f = readDoc key label text >>= fun _ => f (commentOf text) := by
  funext s
  rw [bind_apply, bind_apply, readDoc_apply]
  rfl

theorem visit_parameter (m : Member Method) (name : String) (index : Nat) :
    (do
      let doc ← methodDoc m
      return some (← reportParameter h id m doc (name, index)).2.type) =
    (Place.parameter m name index).visit h := by
  unfold methodDoc
  rw [readDoc_bind]
  simp only [Place.visit, reportParameter, bind_assoc, pure_bind]
  rfl

theorem visit_result (m : Member Method) :
    (do
      let doc ← methodDoc m
      return (← reportResult h id m doc).map SlotReport.type) =
    (Place.result m).visit h := by
  unfold methodDoc
  rw [readDoc_bind]
  unfold Place.visit reportResult
  show _ = readDoc _ _ _ >>= fun _ => _
  congr 1
  funext _
  show _ = match ((commentOf m.decl.doc).result.map TypeTag.type) with | none => _ | some text => _
  cases (commentOf m.decl.doc).result with
  | none => simp
  | some tag => simp only [bind_assoc, pure_bind]; rfl

theorem visit_property (p : Member Property) :
    (do return some (← reportProperty h id p).info.type) = (Place.property p).visit h := by
  unfold reportProperty propertyDoc
  simp only [Place.visit, bind_assoc, pure_bind]
  rw [readDoc_bind]
  rfl

theorem visit_parameterType {m : Member Method} {name : String} {p : String × Nat}
    (hp : m.parameter name = .ok p) :
    (do return some (← parameterType h m name).2) = (Place.parameter m p.1 p.2).visit h := by
  unfold parameterType methodDoc
  rw [hp]
  simp only [Session.ofExcept, bind_assoc, pure_bind]
  rw [readDoc_bind]
  rfl

theorem parameterNames_of_parameter {m : Member Method} {name : String} {p : String × Nat}
    (hp : m.parameter name = .ok p) : m.decl.parameterNames[p.2]? = some p.1 := by
  unfold Member.parameter at hp
  dsimp only at hp
  split at hp
  · rename_i p' hfind
    cases hp
    exact List.mem_zipIdx_iff_getElem?.mp (List.mem_of_find?_eq_some hfind)
  · cases hp

theorem lookup_bind_apply (f : Table → Except SymbolError α) (k : α → SessionM β) (s : Session) :
    (do
      let a ← Session.ofExcept (f (← get).table)
      k a) s =
    match f s.table with
    | .ok a => k a s
    | .error e => (.error e, s) := by
  rw [bind_apply, get_apply]
  dsimp only
  rw [bind_apply, ofExcept_apply]
  cases f s.table <;> rfl

/-- a question either visits the place that it leads to, or it leads nowhere: then it tells no type
and leaves the session as it is -/
theorem Question.ask_cases (h : Hierarchy) (q : Question) (s : Session) :
    (∃ p, q.locate s.table = some p ∧ p.Declared s.table ∧ q.ask h s = p.visit h s) ∨
      q.locate s.table = none ∧ (q.ask h s).2 = s ∧ ∀ ty, (q.ask h s).1 ≠ .ok (some ty) := by
  cases q with
  | parameter type method name =>
    simp only [ask, locate]
    rw [lookup_bind_apply (·.method type method)]
    cases e : s.table.method type method with
    | error err => exact .inr ⟨rfl, rfl, nofun⟩
    | ok m =>
      dsimp only
      cases ep : m.parameter name with
      | error err =>
        have hask : (do return some (← parameterType h m name).2 : SessionM (Option Ty)) s =
            (.error err, s) := by
          unfold parameterType
          rw [ep]
          rfl
        rw [hask]
        exact .inr ⟨by simp [Except.toOption, ep], rfl, nofun⟩
      | ok p =>
        refine .inl ⟨.parameter m p.1 p.2, by simp [Except.toOption, ep], ?_, ?_⟩
        · exact ⟨Table.hasMethod_of_method e, parameterNames_of_parameter ep⟩
        · rw [visit_parameterType ep]
  | parameterAt type method index =>
    simp only [ask, locate]
    rw [lookup_bind_apply (·.method type method)]
    cases e : s.table.method type method with
    | error err => exact .inr ⟨rfl, rfl, nofun⟩
    | ok m =>
      dsimp only
      cases en : m.decl.parameterNames[index]? with
      | none => exact .inr ⟨by simp [Except.toOption, en], rfl, nofun⟩
      | some name =>
        refine .inl ⟨.parameter m name index, by simp [Except.toOption, en], ?_, ?_⟩
        · exact ⟨Table.hasMethod_of_method e, en⟩
        · exact congrFun (visit_parameter m name index) s
  | result type method =>
    simp only [ask, locate]
    rw [lookup_bind_apply (·.method type method)]
    cases e : s.table.method type method with
    | error err => exact .inr ⟨rfl, rfl, nofun⟩
    | ok m => exact .inl ⟨.result m, rfl, Table.hasMethod_of_method e, congrFun (visit_result m) s⟩
  | property type name =>
    simp only [ask, locate]
    rw [lookup_bind_apply (·.property type name)]
    cases e : s.table.property type name with
    | error err => exact .inr ⟨rfl, rfl, nofun⟩
    | ok p =>
      exact .inl ⟨.property p, rfl, Table.hasProperty_of_property e, congrFun (visit_property p) s⟩

theorem Question.table_ask (h : Hierarchy) (q : Question) (s : Session) :
    (q.ask h s).2.table = s.table := by
  obtain ⟨p, -, -, hvisit⟩ | ⟨-, hsame, -⟩ := q.ask_cases h s
  · obtain ⟨events, heffect⟩ := p.visit_effect h s
    rw [hvisit, heffect.grows.table]
  · rw [hsame]

end

end TypeHint
