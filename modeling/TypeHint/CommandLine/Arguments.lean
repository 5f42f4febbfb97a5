/-!
# Command line arguments

`Request.ofArguments?` reads the arguments in two stages.  In front of the subcommand stand options
of the program; after it stand its operands and options, in any order.  `--` makes everything after
it an operand.

An option takes its value from the same argument, after `=`, or from the next one, which must not
look like an option.  An option is given at most once in each stage.  The option `--symbols` is
known in both stages and the later one counts; where it is missing in a stage the environment
stands in, and wherever it comes from the path is not empty.
-/

namespace TypeHint.CommandLine

inductive Command where
  | name (text : String) (context : Option String)
  | check (target candidate : String) (context : Option String)
  | accepts (text json : String) (context : Option String)
  | describe (type member : String)
deriving DecidableEq, Repr

inductive Request where
  | help
  | version
  | run (symbols : Option String) (command : Command)
deriving DecidableEq, Repr

/-! ## subcommands -/

inductive Subcommand where
  | name | check | accepts | describe
deriving DecidableEq, Repr

namespace Subcommand

def ofName? (s : String) : Option Subcommand :=
  [("name", name), ("check", check), ("accepts", accepts), ("describe", describe)].lookup s

def takesContext : Subcommand → Bool
  | describe => false
  | _ => true

/-- the command with the given operands -/
def command? : Subcommand → List String → Option String → Option Command
  | name, [text], context => some (.name text context)
  | check, [target, candidate], context => some (.check target candidate context)
  | accepts, [text, json], context => some (.accepts text json context)
  | describe, [type, member], _ => some (.describe type member)
  | _, _, _ => none

end Subcommand

/-! ## options -/

/-- a lone `-` is an ordinary argument -/
def looksLikeOption (arg : String) : Bool := arg.toList.head? == some '-' && arg != "-"

/-- the value in an argument of the form `--NAME=VALUE` -/
def attached? (option arg : String) : Option String :=
  ((option ++ "=").toList.isPrefixOf? arg.toList).map String.ofList

/-- an argument that starts with the letter of a short option -/
def isShort (letter : Char) (arg : String) : Bool := ['-', letter].isPrefixOf arg.toList

/-- sets a value that was not set before -/
def once (old : Option String) (new : String) : Option (Option String) :=
  if old.isNone then some (some new) else none

/-! ## after the subcommand -/

/-- what was read after the subcommand, operands in reverse -/
structure Tail where
  symbols : Option String
  context : Option String
  operands : List String

inductive TailResult where
  | help
  | done (tail : Tail)

/-- reads what stands after the subcommand `sub` -/
def readTail (sub : Subcommand) (tail : Tail) : List String → Option TailResult
  | [] => some (.done tail)
  | arg :: args =>
    if arg = "--" then some (.done { tail with operands := args.reverse ++ tail.operands })
    else if arg = "--help" || isShort 'h' arg then some .help
    else if let some value := attached? "--symbols" arg then do
      readTail sub { tail with symbols := ← once tail.symbols value } args
    else if let some value := if sub.takesContext then attached? "--context" arg else none then do
      readTail sub { tail with context := ← once tail.context value } args
    else if arg = "--symbols" then
      match args with
      | value :: args => do
        if looksLikeOption value then none
        readTail sub { tail with symbols := ← once tail.symbols value } args
      | [] => none
    else if arg = "--context" && sub.takesContext then
      match args with
      | value :: args => do
        if looksLikeOption value then none
        readTail sub { tail with context := ← once tail.context value } args
      | [] => none
    else if looksLikeOption arg then none
    else readTail sub { tail with operands := arg :: tail.operands } args

/-! ## the whole line -/

/-- the path to the symbols, from the two stages and the environment -/
def symbolsPath? (front tail environment : Option String) : Option (Option String) :=
  let stages := [front.or environment, tail.or environment]
  if stages.contains (some "") then none else some (tail.or (front.or environment))

def readSubcommand (environment front : Option String) (sub : Subcommand) (args : List String) :
    Option Request := do
  match ← readTail sub ⟨none, none, []⟩ args with
  | .help => return .help
  | .done tail =>
    let command ← sub.command? tail.operands.reverse tail.context
    return .run (← symbolsPath? front tail.symbols environment) command

/-- help is asked for as such or for one subcommand -/
def readHelp : List String → Option Request
  | [] => some .help
  | [topic] => if topic = "help" || (Subcommand.ofName? topic).isSome then some .help else none
  | _ => none

/-- reads what stands in front of the subcommand, and the rest -/
def readFront (environment front : Option String) : List String → Option Request
  | [] => none
  | arg :: args =>
    if arg = "--" then none
    else if arg = "--version" || isShort 'V' arg then some .version
    else if arg = "--help" || isShort 'h' arg then some .help
    else if let some value := attached? "--symbols" arg then do
      if value = "" then none
      readFront environment (← once front value) args
    else if arg = "--symbols" then
      match args with
      | value :: args => do
        if looksLikeOption value || value = "" then none
        readFront environment (← once front value) args
      | [] => none
    else if looksLikeOption arg then none
    else if arg = "help" then readHelp args
    else do readSubcommand environment front (← Subcommand.ofName? arg) args

/-- the request in a list of arguments, where `environment` is the path to the symbols that the
environment gives -/
def Request.ofArguments? (environment : Option String) (args : List String) : Option Request :=
  readFront environment none args

end TypeHint.CommandLine
