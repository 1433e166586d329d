/-
The program as a function: from the typed arguments and what can be read to an exit status and the two output texts.
Arguments that are not taken end with status 2, input that cannot be used with status 1.
-/
import Arbor.Command.Arguments
import Arbor.Command.Comments
import Arbor.Command.Find
import Arbor.Command.Input
import Arbor.Command.Stats
import Arbor.Command.Tokens
import Arbor.Text.Unstyled
import Arbor.View.Outline

namespace Arbor.Command

/-- what a command does with its input -/
inductive Action where
  | tree (style : OutlineStyle)
  | find (query : Query) (palette : Palette)
  | stats (json : Bool)
  | comments (json : Bool) (palette : Palette)
  | tokens (range : Option Span) (palette : Palette)
  deriving DecidableEq, Repr

/-- a command with the names of its input -/
structure Invocation where
  file : String
  schema : Option String
  action : Action
  deriving DecidableEq, Repr

/-- which of the two output texts go to a terminal -/
structure Terminals where
  output : Bool
  report : Bool
  deriving DecidableEq, Repr

/-- what a run of the program leaves behind -/
structure Outcome where
  status : Nat
  output : String
  report : String
  deriving DecidableEq, Repr

/-! ## From the arguments to an invocation -/

/-- the file name that was taken for an argument -/
def pathSetting? (r : Reading) (a : Argument) : Option String :=
  match r.get? a with
  | some (.path name) => some name
  | _ => none

/-- the palette that was asked for -/
def paletteSetting (terminals : Terminals) (r : Reading) : Palette :=
  match r.get? .color with
  | some (.colouring c) => .ofBool (c.applies terminals.output)
  | _ => .ofBool (Colouring.auto.applies terminals.output)

/-- the question that was asked about nodes -/
def querySetting (r : Reading) : Query :=
  match r.get? .kind, r.get? .at, r.get? .overlapping with
  | some (.kind name), _, _ => .kind name
  | _, some (.position pos), _ => .at pos
  | _, _, some (.span range) => .overlapping range
  | _, _, _ => .overlapping (.of 0 0xffffffff)

/-- what the command does under the given settings -/
def actionOf (terminals : Terminals) (r : Reading) : Name → Action
  | .tree => .tree ⟨r.has .spans, !r.has .noAttrs, paletteSetting terminals r⟩
  | .find => .find (querySetting r) (paletteSetting terminals r)
  | .stats => .stats (r.has .json)
  | .comments => .comments (r.has .json) (paletteSetting terminals r)
  | .tokens =>
    .tokens (match r.get? .range with
      | some (.span range) => some range
      | _ => none) (paletteSetting terminals r)

/-- the invocation that arguments stand for -/
def invocation (terminals : Terminals) (args : List String) : Except Stop Invocation := do
  let r ← readArguments args
  let action := actionOf terminals r (r.command.getD .tree)
  return ⟨(pathSetting? r .file).getD "-", pathSetting? r .schema, action⟩

/-! ## Running -/

/-- lines with their ends -/
def unlines (lines : List String) : String := String.join (lines.map fun line => line ++ "\n")

/-- what an action prints about an input -/
def Action.print (input : Input) : Action → Except Fault String
  | .tree style => input.view.outline input.document.tree.root style
  | .find query palette => unlines <$> findLines input.view query palette
  | .stats json => do
    let stats ← Stats.collect input.document input.schema
    return if json then stats.toJson.pretty ++ "\n" else unlines stats.lines
  | .comments json palette => do
    if json then
      let records ← commentsJson input.view input.document.comments
      return records.pretty ++ "\n"
    else
      unlines <$> commentLines input.view input.document.comments palette
  | .tokens range palette => return unlines (tokenLines (.ofList input.document.tokens) range palette)

/-- run an invocation -/
def Invocation.run (sources : Sources) (i : Invocation) : Outcome :=
  match load sources i.file i.schema with
  | .error e => ⟨1, "", s!"error: {e.message}\n"⟩
  | .ok input =>
    match i.action.print input with
    | .error fault => ⟨101, "", fault.message ++ "\n"⟩
    | .ok text => ⟨0, text, ""⟩

/-- run the program -/
def run (terminals : Terminals) (args : List String) (sources : Sources) : Outcome :=
  match invocation terminals args with
  | .error (.failed e) => ⟨2, "", if terminals.report then e.report else Text.unstyled e.report⟩
  | .error .help => ⟨0, about ++ "\n", ""⟩
  | .ok i => i.run sources

end Arbor.Command
