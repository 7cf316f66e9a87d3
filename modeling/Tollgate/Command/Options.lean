import Tollgate.Bound
import Tollgate.Text.Blank

/-!
# Options

Arguments are read from left to right.  The first fault ends the reading, and
so do the requests for help and for the version.
-/

namespace Tollgate

inductive UsageError where
  | needsArgument (option : String)
  | badParallel (value : String)
  | unknownOption (option : String)
  | unexpectedArgument (argument : String)
  | twoInputs
  deriving DecidableEq, Repr

def UsageError.message : UsageError → String
  | .needsArgument option => option ++ " requires an argument"
  | .badParallel value => "Invalid parallel value: " ++ value
  | .unknownOption option => "Unknown option: " ++ option
  | .unexpectedArgument argument => "Unexpected argument: " ++ argument
  | .twoInputs => "--input and --input-json are mutually exclusive"

structure Options where
  workflow : String := "workflow.yaml"
  inputFile : Option String := none
  inputText : Option String := none
  user : String := "cli"
  config : Option String := none
  auditLog : Option String := none
  maxParallel : Option Nat := none
  analyze : Bool := false
  json : Bool := false
  verbose : Bool := false
  deriving DecidableEq, Repr

inductive Request where
  | help
  | version
  | work (options : Options)
  deriving DecidableEq, Repr

namespace Options

def switch? (argument : String) (options : Options) : Option Options :=
  if argument = "--analyze" then some { options with analyze := true }
  else if argument = "--json" then some { options with json := true }
  else if argument = "--verbose" ∨ argument = "-v" then some { options with verbose := true }
  else none

def setting? (argument : String) : Option (String → Options → Except UsageError Options) :=
  if argument = "--input" then
    some fun value options => .ok { options with inputFile := some value }
  else if argument = "--input-json" then
    some fun value options => .ok { options with inputText := some value }
  else if argument = "--user" then some fun value options => .ok { options with user := value }
  else if argument = "--config" then
    some fun value options => .ok { options with config := some value }
  else if argument = "--audit-log" then
    some fun value options => .ok { options with auditLog := some value }
  else if argument = "--parallel" then
    some fun value options =>
      match Text.numeral? Bound.longWord value with
      | some n => .ok { options with maxParallel := some n }
      | none => .error (.badParallel value)
  else none

def readFrom (options : Options) (named : Bool) : List String → Except UsageError Request
  | [] =>
      if options.inputFile.isSome && options.inputText.isSome then .error .twoInputs
      else .ok (.work options)
  | argument :: rest =>
      if argument = "--help" ∨ argument = "-h" then .ok .help
      else if argument = "--version" ∨ argument = "-V" then .ok .version
      else
        match options.switch? argument, setting? argument with
        | some options, _ => readFrom options named rest
        | none, some set =>
            match rest with
            | [] => .error (.needsArgument argument)
            | value :: rest =>
                match set value options with
                | .ok options => readFrom options named rest
                | .error error => .error error
        | none, none =>
            if argument.startsWith "-" then .error (.unknownOption argument)
            else if named then .error (.unexpectedArgument argument)
            else readFrom { options with workflow := argument } true rest

def read (arguments : List String) : Except UsageError Request := readFrom {} false arguments

end Options

end Tollgate
