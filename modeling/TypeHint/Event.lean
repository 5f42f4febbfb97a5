/-!
# Events

What the library does on the way to an answer is told by a list of events.  An `Event` is shown by
its level, its message and its fields.
-/

namespace TypeHint

inductive Event where
  | registeredClass (name : String)
  | registeredInterface (name : String)
  | tableLoaded (classes interfaces : Nat)
  | aliasTableBuilt (declaring : String) (imports : Nat)
  | docCommentRead (owner : String)
  | unnamedParam (tag : String)
  | ignoredTag (tag : String)
  | memberTyped (declaring text type : String)
  | nameExpanded (short full : String)
  | objectFound (text type : String)
  /-- a union member is accepted by one that was kept before it -/
  | memberCovered (member : String)
  /-- a kept union member is accepted by a later one -/
  | memberReplaced (member cover : String)
  | unionBuilt (type : String)
deriving DecidableEq, Repr

namespace Event

inductive Level where
  | trace | debug
deriving DecidableEq, Repr

def Level.name : Level → String
  | .trace => "trace"
  | .debug => "debug"

def level : Event → Level
  | registeredClass _ | registeredInterface _ | unnamedParam _ | ignoredTag _ | objectFound ..
  | memberCovered _ | memberReplaced .. => .trace
  | tableLoaded .. | aliasTableBuilt .. | docCommentRead _ | memberTyped .. | nameExpanded ..
  | unionBuilt _ => .debug

def message : Event → String
  | registeredClass _ => "registered class"
  | registeredInterface _ => "registered interface"
  | tableLoaded .. => "symbol table loaded"
  | aliasTableBuilt .. => "building import alias table"
  | docCommentRead _ => "parsing docblock"
  | unnamedParam _ => "skipping @param tag without a variable name"
  | ignoredTag _ => "skipping docblock tag"
  | memberTyped .. => "parsed member type"
  | nameExpanded .. => "expanded relative type name"
  | objectFound .. => "resolved object type"
  | memberCovered _ | memberReplaced .. => "dropping covered union member"
  | unionBuilt _ => "constructed union"

def fields : Event → List (String × String)
  | registeredClass n => [("class", n)]
  | registeredInterface n => [("interface", n)]
  | tableLoaded c i => [("classes", toString c), ("interfaces", toString i)]
  | aliasTableBuilt d n => [("declaring_type", d), ("imports", toString n)]
  | docCommentRead o => [("owner", o)]
  | unnamedParam t => [("tag", t)]
  | ignoredTag t => [("tag", t)]
  | memberTyped d t ty => [("declaring_type", d), ("annotation", t), ("ty", ty)]
  | nameExpanded s f => [("short", s), ("resolved", f)]
  | objectFound t ty => [("annotation", t), ("ty", ty)]
  | memberCovered m => [("member", m)]
  | memberReplaced m b => [("member", m), ("by", b)]
  | unionBuilt ty => [("ty", ty)]

end Event

end TypeHint
