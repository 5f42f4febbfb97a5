import TypeHint.DocComment
import TypeHint.Symbol.Members

/-!
# Sessions

A `Session` is a table together with what was found out about its members so far.  The type of a
parameter, result or property is computed once: the first answer stays, also when symbols are
registered later or another hierarchy is asked.  A failure is not kept.  Likewise a documentation
comment is read once and the alias table of a symbol is built once, which only the log shows.

* `Session.record`           adds events to the log
* `Session.follow`           runs a traced computation in a session
* `Session.slotType`         the type of a parameter, result or property
* `Session.reportMethod`     all that is documented about a method
* `Session.reportProperty`   all that is documented about a property
* `Session.parameterType`    the type of one parameter

A contradiction of the type algebra ends a question as a whole.
-/

namespace TypeHint

/-- a place in a declaration that has a type -/
inductive Slot where
  | parameter (declaring method : String) (index : Nat)
  | result (declaring method : String)
  | property (declaring name : String)
deriving DecidableEq, Repr

/-- a declaration with a documentation comment -/
inductive Documented where
  | method (declaring name : String)
  | property (declaring name : String)
deriving DecidableEq, Repr

structure Session where
  table : Table
  /-- types computed so far -/
  types : List (Slot × Ty)
  /-- declarations whose comment was read -/
  docsRead : List Documented
  /-- symbols whose alias table was built -/
  aliasTables : List String
  log : List Event

/-- a step that may fail; its effects stay in either case -/
abbrev SessionM := ExceptT SymbolError (StateM Session)

namespace Session

def ofTable (t : Table) : Session := ⟨t, [], [], [], []⟩

/-! ## the log -/

def recordOne (s : Session) (e : Event) : Session :=
  match e with
  | .aliasTableBuilt declaring _ =>
    if declaring ∈ s.aliasTables then s
    else { s with aliasTables := declaring :: s.aliasTables, log := s.log ++ [e] }
  | _ => { s with log := s.log ++ [e] }

/-- adds events to the log; the alias table of a symbol is built only the first time -/
def record (s : Session) (es : List Event) : Session := es.foldl recordOne s

/-- runs a traced computation -/
def follow {ε α : Type} (wrap : ε → SymbolError) (x : Traced ε α) : SessionM α := do
  modify (·.record x.log)
  match x.result with
  | .ok a => pure a
  | .error e => throw (wrap e)

def ofExcept {α : Type} : Except SymbolError α → SessionM α
  | .ok a => pure a
  | .error e => throw e

/-- runs a step and returns its failure as a value, unless it is a contradiction -/
def attempt {α : Type} (x : SessionM α) : SessionM (Except SymbolError α) :=
  tryCatch (Except.ok <$> x) fun e =>
    match e with
    | .type (.contradiction _) => throw e
    | _ => pure (.error e)

/-! ## registration -/

def register (symbol : Symbol) : SessionM Unit := do
  let t ← follow id ((← get).table.registerTraced symbol)
  modify ({ · with table := t })

def check : SessionM Unit := do ofExcept (← get).table.check

/-! ## documentation -/

/-- the comment of a declaration, which is called `label` in the log when it is read -/
def readDoc (key : Documented) (label : String) (text : Option String) : SessionM DocComment := do
  if key ∉ (← get).docsRead then
    modify fun s => { s with docsRead := key :: s.docsRead }
    modify (·.record (.docCommentRead label :: text.elim [] DocComment.events))
  return text.elim .empty DocComment.ofText

def methodDoc (m : Member Method) : SessionM DocComment :=
  let owner := m.owner.name
  readDoc (.method owner m.decl.name) (owner ++ "::" ++ m.decl.name) m.decl.doc

def propertyDoc (p : Member Property) : SessionM DocComment :=
  let owner := p.owner.name
  readDoc (.property owner p.decl.bareName) (owner ++ "::$" ++ p.decl.name) p.decl.doc

/-! ## types of members -/

/-- the type in a slot: the one computed before, or else the meaning of `text` where it stands -/
def slotType (h : Hierarchy) (slot : Slot) (owner : Symbol) (text : String) : SessionM Ty := do
  match (← get).types.lookup slot with
  | some t => pure t
  | none => do
    let t ← follow .type (Ty.ofText h (some owner.resolver) text)
    modify (·.record [.memberTyped owner.name text t.name])
    modify fun s => { s with types := (slot, t) :: s.types }
    return t

/-- how the type of a member without a tag is written -/
def untyped : String := "mixed"

/-- what is documented about a parameter, result or property -/
structure SlotReport (τ : Type) where
  description : String
  text : String
  type : τ

structure MethodReport (τ : Type) where
  name : String
  declaring : String
  description : String
  parameters : List (String × SlotReport τ)
  result : Option (SlotReport τ)

structure PropertyReport (τ : Type) where
  name : String
  declaring : String
  info : SlotReport τ

section

variable {τ : Type}

/-- the text of a parameter's type and its description -/
def parameterText (doc : DocComment) (name : String) : String × String :=
  match doc.find? name with
  | some tag => (tag.type, tag.description)
  | none => (untyped, "")

def parameterSlot (m : Member Method) (index : Nat) : Slot :=
  .parameter m.owner.name m.decl.name index

def reportParameter (h : Hierarchy) (answer : SessionM Ty → SessionM τ) (m : Member Method)
    (doc : DocComment) (p : String × Nat) : SessionM (String × SlotReport τ) := do
  let (text, description) := parameterText doc p.1
  let type ← answer (slotType h (parameterSlot m p.2) m.owner text)
  return (p.1, ⟨description, text, type⟩)

def reportResult (h : Hierarchy) (answer : SessionM Ty → SessionM τ) (m : Member Method)
    (doc : DocComment) : SessionM (Option (SlotReport τ)) :=
  match doc.result with
  | none => pure none
  | some tag => do
    let type ← answer (slotType h (.result m.owner.name m.decl.name) m.owner tag.type)
    return some ⟨tag.description, tag.type, type⟩

/-- all about a method: its parameters in order, then its result; `answer` says what becomes of a
type that cannot be told -/
def reportMethod (h : Hierarchy) (answer : SessionM Ty → SessionM τ) (m : Member Method) :
    SessionM (MethodReport τ) := do
  let doc ← methodDoc m
  let parameters ← m.decl.parameterNames.zipIdx.mapM (reportParameter h answer m doc)
  let result ← reportResult h answer m doc
  return ⟨m.decl.name, m.owner.name, doc.description, parameters, result⟩

def reportProperty (h : Hierarchy) (answer : SessionM Ty → SessionM τ) (p : Member Property) :
    SessionM (PropertyReport τ) := do
  let doc ← propertyDoc p
  let text := doc.var.elim untyped TypeTag.type
  let type ← answer (slotType h (.property p.owner.name p.decl.bareName) p.owner text)
  return ⟨p.decl.bareName, p.owner.name, ⟨doc.description, text, type⟩⟩

end

/-- the name and the type of one parameter -/
def parameterType (h : Hierarchy) (m : Member Method) (name : String) :
    SessionM (String × Ty) := do
  let p ← ofExcept (m.parameter name)
  let doc ← methodDoc m
  let t ← slotType h (parameterSlot m p.2) m.owner (parameterText doc p.1).1
  return (p.1, t)

end Session

end TypeHint
