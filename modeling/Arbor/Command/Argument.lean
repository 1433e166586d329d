/-
What can be typed after the program's name: the commands, the arguments that each of them knows, and how the text of an
argument is taken.
-/
import Arbor.Span.Typed

namespace Arbor.Command

/-- the commands -/
inductive Name where
  | tree
  | find
  | stats
  | comments
  | tokens
  deriving DecidableEq, Repr, Inhabited

/-- every command -/
def Name.all : List Name := [.tree, .find, .stats, .comments, .tokens]

/-- how a command is typed -/
def Name.text : Name → String
  | .tree => "tree"
  | .find => "find"
  | .stats => "stats"
  | .comments => "comments"
  | .tokens => "tokens"

/-- the command of a text -/
def Name.ofText? (s : String) : Option Name := all.find? fun name => name.text == s

/-- the arguments of the commands -/
inductive Argument where
  | file
  | schema
  | color
  | spans
  | noAttrs
  | json
  | kind
  | at
  | overlapping
  | range
  | verbose
  | help
  deriving DecidableEq, Repr, Inhabited

namespace Argument

/-- how an option is typed after two dashes; the file has no such form -/
def long? : Argument → Option String
  | .file => none
  | .schema => some "schema"
  | .color => some "color"
  | .spans => some "spans"
  | .noAttrs => some "no-attrs"
  | .json => some "json"
  | .kind => some "kind"
  | .at => some "at"
  | .overlapping => some "overlapping"
  | .range => some "range"
  | .verbose => some "verbose"
  | .help => some "help"

/-- how an option is typed after one dash -/
def short? : Argument → Option Char
  | .verbose => some 'v'
  | .help => some 'h'
  | _ => none

/-- what the value of an argument is called; a flag has none -/
def valueName? : Argument → Option String
  | .file | .schema => some "FILE"
  | .color => some "WHEN"
  | .kind => some "KIND"
  | .at => some "POS"
  | .overlapping | .range => some "START..END"
  | .spans | .noAttrs | .json | .verbose | .help => none

/-- the argument asks which nodes to find; a search asks exactly one such question -/
def isQuery : Argument → Bool
  | .kind | .at | .overlapping => true
  | _ => false

/-- the argument may be given more than once -/
def mayRepeat (a : Argument) : Bool := a == .verbose

/-- how an argument is named in reports; points follow one that may be repeated -/
def text (a : Argument) : String :=
  match a.long?, a.valueName? with
  | some long, some value => s!"--{long} <{value}>"
  | some long, none => s!"--{long}" ++ if a.mayRepeat then "..." else ""
  | none, some value => s!"<{value}>"
  | none, none => ""

end Argument

/-- the options that a command knows; before the command, only those common to all are known -/
def optionsOf : Option Name → List Argument
  | none => [.verbose, .help]
  | some .tree => [.spans, .noAttrs, .color, .schema, .verbose, .help]
  | some .find => [.kind, .at, .overlapping, .color, .schema, .verbose, .help]
  | some .stats => [.json, .schema, .verbose, .help]
  | some .comments => [.json, .color, .schema, .verbose, .help]
  | some .tokens => [.range, .color, .schema, .verbose, .help]

/-! ## Values -/

/-- when output is coloured -/
inductive Colouring where
  | auto
  | always
  | never
  deriving DecidableEq, Repr, Inhabited

/-- output is coloured; `auto` colours what goes to a terminal -/
def Colouring.applies (terminal : Bool) : Colouring → Bool
  | .auto => terminal
  | .always => true
  | .never => false

/-- the taken value of an argument -/
inductive Setting where
  | flag
  | path (name : String)
  | colouring (when : Colouring)
  | kind (name : String)
  | position (pos : Nat)
  | span (range : Span)
  deriving DecidableEq, Repr

/-- why the text of a value is not taken -/
inductive ValueProblem where
  /-- the text must not be empty -/
  | missing
  /-- the text is none of the known words -/
  | unknownWord
  /-- the text is not of the right form, for the given reason -/
  | wrong (reason : String)
  deriving DecidableEq, Repr

/-- a position from 0 to 2^32 - 1 -/
def positionOf (s : String) : Except ValueProblem Setting :=
  match readInteger s.toList with
  | .error p => .error (.wrong p.message)
  | .ok n =>
    if 0 ≤ n ∧ n < 0x100000000 then .ok (.position n.toNat) else .error (.wrong s!"{n} is not in 0..=4294967295")

/-- one of the words for colouring -/
def colouringOf : String → Except ValueProblem Setting
  | "" => .error .missing
  | "auto" => .ok (.colouring .auto)
  | "always" => .ok (.colouring .always)
  | "never" => .ok (.colouring .never)
  | _ => .error .unknownWord

/-- a file name -/
def pathOf (s : String) : Except ValueProblem Setting := if s.isEmpty then .error .missing else .ok (.path s)

/-- a typed span -/
def spanOf (s : String) : Except ValueProblem Setting :=
  match Span.ofTyped s with
  | .error p => .error (.wrong p.message)
  | .ok range => .ok (.span range)

/-- take the text of a value -/
def Argument.take : Argument → String → Except ValueProblem Setting
  | .file, s | .schema, s => pathOf s
  | .color, s => colouringOf s
  | .kind, s => .ok (.kind s)
  | .at, s => positionOf s
  | .overlapping, s | .range, s => spanOf s
  | _, _ => .ok .flag

end Arbor.Command
