/-
What can be wrong with the typed arguments, and the report about it: what is wrong, and where help is to be found.
-/
import Arbor.Command.Argument

namespace Arbor.Command

/-- why the arguments are not taken -/
inductive UsageError where
  /-- there are none -/
  | noArguments
  /-- there is no command among them -/
  | missingCommand
  | unknownCommand (text : String)
  /-- an argument that the command needs is not there -/
  | missingArguments
  | unexpectedArgument (text : String)
  /-- a flag was given a value -/
  | unexpectedValue (value : String) (argument : Argument)
  /-- an argument has no value, or an empty one that it does not take -/
  | missingValue (argument : Argument)
  | invalidValue (value : String) (argument : Argument) (reason : Option String)
  | repeated (argument : Argument)
  /-- arguments that exclude each other, the one given first in front -/
  | conflict (argument : Argument) (others : List Argument)
  deriving DecidableEq, Repr

/-- what the program does -/
def about : String := "Inspect, query and annotate ESTree-shaped syntax trees"

/-! ## Reports

Reports are written for a terminal, with colours: what was typed wrongly is yellow. Typed text is shown as it is, so it
may bring control sequences of its own; the colour marks after it end whatever they have begun. -/

/-- the mark that ends all styles -/
def plainMark : String := "\x1b[0m"

/-- the word that opens a report -/
def opening : String := "\x1b[1m\x1b[31merror:" ++ plainMark ++ " "

/-- something that was typed and is wrong -/
def wrong (s : String) : String := "'\x1b[33m" ++ s ++ plainMark ++ "'"

/-- something that is to be typed as it is -/
def literal (s : String) : String := "'\x1b[1m" ++ s ++ plainMark ++ "'"

/-- where help is to be found -/
def hint : String := "\n\nFor more information, try " ++ literal "--help" ++ ".\n"

/-- a value that was not taken for an argument -/
def invalidValue (value : String) (argument : Argument) : String :=
  "invalid value " ++ wrong value ++ " for " ++ literal argument.text

/-- what is wrong -/
def UsageError.message : UsageError → String
  | .noArguments => about
  | .missingCommand => wrong "sylva" ++ " requires a subcommand but one was not provided"
  | .unknownCommand text => "unrecognized subcommand " ++ wrong text
  | .missingArguments => "the following required arguments were not provided:"
  | .unexpectedArgument text => "unexpected argument " ++ wrong text ++ " found"
  | .unexpectedValue value argument =>
    "unexpected value " ++ wrong value ++ " for " ++ literal argument.text ++ " found; no more were expected"
  | .missingValue argument => "a value is required for " ++ wrong argument.text ++ " but none was supplied"
  | .invalidValue value argument none => Command.invalidValue value argument
  | .invalidValue value argument (some reason) => Command.invalidValue value argument ++ ": " ++ reason
  | .repeated argument => "the argument " ++ wrong argument.text ++ " cannot be used multiple times"
  | .conflict argument [other] => "the argument " ++ wrong argument.text ++ " cannot be used with " ++ wrong other.text
  | .conflict argument _ => "the argument " ++ wrong argument.text ++ " cannot be used with:"

/-- the report for a usage error; without any argument, the report is what the program does -/
def UsageError.report (e : UsageError) : String :=
  match e with
  | .noArguments => e.message ++ "\n"
  | _ => opening ++ e.message ++ hint

end Arbor.Command
