/-
Reading the typed arguments from left to right.

A value that stands apart from its option, and the file, are taken only when the next argument is accepted or the
arguments end; until then they are pending. An argument that nobody knows is therefore reported before a pending value
that cannot be taken, while an option that is known reports the pending value first. After two dashes on their own,
everything is a file.
-/
import Arbor.Command.Usage

namespace Arbor.Command

/-- the arguments of one command as far as they are read -/
structure Reading where
  command : Option Name
  /-- what was taken, in the order of taking -/
  taken : List (Argument × Setting)
  /-- an argument with its text, not yet taken; an option may still wait for its text -/
  pending : Option (Argument × Option String)
  /-- two dashes were passed -/
  filesOnly : Bool
  /-- the file was given -/
  hasFile : Bool
  deriving DecidableEq, Repr

/-- why reading ends before the arguments do -/
inductive Stop where
  | failed (e : UsageError)
  /-- help was asked for -/
  | help
  deriving DecidableEq, Repr

namespace Reading

/-- nothing read yet -/
def start (command : Option Name) : Reading := ⟨command, [], none, false, false⟩

/-- take the text of an argument; it must not have been taken before -/
def takeValue (r : Reading) (a : Argument) (text : String) : Except Stop Reading :=
  if r.taken.any fun (b, _) => b == a then .error (.failed (.repeated a))
  else
    match a.take text with
    | .ok setting => .ok { r with taken := r.taken ++ [(a, setting)] }
    | .error .missing => .error (.failed (.missingValue a))
    | .error .unknownWord => .error (.failed (.invalidValue text a none))
    | .error (.wrong reason) => .error (.failed (.invalidValue text a (some reason)))

/-- take what is pending -/
def settle (r : Reading) : Except Stop Reading :=
  match r.pending with
  | none => .ok r
  | some (a, none) => .error (.failed (.missingValue a))
  | some (a, some text) => takeValue { r with pending := none } a text

/-- take a flag -/
def takeFlag (r : Reading) (a : Argument) : Except Stop Reading := do
  let r ← r.settle
  if a = .help then .error .help
  else if !a.mayRepeat && r.taken.any fun (b, _) => b == a then .error (.failed (.repeated a))
  else .ok { r with taken := r.taken ++ [(a, .flag)] }

/-- an option after two dashes, with what follows an equals sign -/
def readLong (r : Reading) (name : String) (value : Option String) : Except Stop Reading :=
  match (optionsOf r.command).find? fun a => a.long? == some name with
  | none => .error (.failed (.unexpectedArgument ("--" ++ name)))
  | some a =>
    match a.valueName?, value with
    | none, none => r.takeFlag a
    | none, some text => .error (.failed (.unexpectedValue text a))
    | some _, some text => do
      let r ← r.settle
      r.takeValue a text
    | some _, none => do
      let r ← r.settle
      .ok { r with pending := some (a, none) }

/-- flags after one dash; none of them has a value -/
def readShort (r : Reading) : List Char → Except Stop Reading
  | [] => .ok r
  | c :: rest =>
    match (optionsOf r.command).find? fun a => a.short? == some c with
    | none => .error (.failed (.unexpectedArgument ("-" ++ c.toString)))
    | some a => do
      let r ← r.takeFlag a
      r.readShort rest

/-- the file; there is only one -/
def readFile (r : Reading) (text : String) : Except Stop Reading :=
  if r.hasFile then .error (.failed (.unexpectedArgument text))
  else do
    let r ← r.settle
    .ok { r with pending := some (.file, some text), hasFile := true }

/-- what stands before and after the first equals sign -/
def splitValue (s : List Char) : String × Option String :=
  match s.dropWhile fun c => c != '=' with
  | [] => (String.ofList s, none)
  | _ :: value => (String.ofList (s.takeWhile fun c => c != '='), some (String.ofList value))

/-- an argument that does not start with a dash, or a dash alone -/
def readPlain (r : Reading) (text : String) : Except Stop Reading :=
  match r.pending with
  | some (a, none) => .ok { r with pending := some (a, some text) }
  | _ => r.readFile text

/-- one argument of a command -/
def step (r : Reading) (text : String) : Except Stop Reading :=
  if r.filesOnly then r.readFile text
  else
    match text.toList with
    | ['-', '-'] => .ok { r with filesOnly := true }
    | '-' :: '-' :: name =>
      let (name, value) := splitValue name
      r.readLong name value
    | '-' :: c :: rest => r.readShort (c :: rest)
    | _ => r.readPlain text

/-- the setting that was taken for an argument -/
def get? (r : Reading) (a : Argument) : Option Setting := (r.taken.find? fun (b, _) => b == a).map Prod.snd

/-- the argument was taken -/
def has (r : Reading) (a : Argument) : Bool := (r.get? a).isSome

/-- the questions that were asked about nodes, in order -/
def queries (r : Reading) : List Argument := (r.taken.map Prod.fst).filter Argument.isQuery

/-- what is wrong with the arguments as a whole: first questions that exclude each other, then what is missing -/
def problem? (r : Reading) : Option UsageError :=
  match r.queries with
  | first :: other :: more => some (.conflict first (other :: more))
  | asked =>
    if !r.has .file || (r.command == some .find && asked.isEmpty) then some .missingArguments else none

/-- read all arguments of a command -/
def run (command : Name) (args : List String) : Except Stop Reading := do
  let r ← args.foldlM step (start (some command))
  let r ← r.settle
  match r.problem? with
  | some e => .error (.failed e)
  | none => .ok r

end Reading

/-! ## Before the command -/

/-- what follows the word `help`: nothing, or a command -/
def readHelp : List String → Stop
  | [] => .help
  | text :: rest =>
    if (Name.ofText? text).isNone && text != "help" then .failed (.unknownCommand text)
    else
      match rest with
      | [] => .help
      | text :: _ => .failed (.unknownCommand text)

/-- read the arguments up to the command, then those of the command; `given` says that some argument was taken -/
def readFrom (r : Reading) (given : Bool) : List String → Except Stop Reading
  | [] => .error (.failed (if given then .missingCommand else .noArguments))
  | text :: rest =>
    if r.filesOnly then
      if (Name.ofText? text).isSome || text == "help" then .error (.failed (.unexpectedArgument text))
      else .error (.failed (.unknownCommand text))
    else
      match Name.ofText? text with
      | some command => Reading.run command rest
      | none =>
        if text == "help" then .error (readHelp rest)
        else
          match text.toList with
          | ['-', '-'] => readFrom { r with filesOnly := true } given rest
          | '-' :: _ :: _ => do
            let r ← r.step text
            readFrom r true rest
          | _ => .error (.failed (.unknownCommand text))

/-- read everything after the program's name -/
def readArguments (args : List String) : Except Stop Reading := readFrom (.start none) false args

end Arbor.Command
