import Tollgate.Engine.Basic

/-!
# Rehearsed engines

A rehearsed engine answers from a script: the first call of a function takes
the first cue, the next call the next one, and the last cue is used over and
over.  The rehearsal notes every call and whether a cue cancelled the run.
-/

namespace Tollgate

inductive CueOutcome where
  | transient (reason : String)
  | permanent (reason : String)
  | unknown
  | echo
  | value (value : Json)

structure Cue where
  cancels : Bool := false
  millis : Nat := 0
  outcome : CueOutcome := .value .null

structure Rehearsal where
  calls : List (String × String × Json) := []
  cancelled : Bool := false

namespace Rehearsal

def count (rehearsal : Rehearsal) (engine function : String) : Nat :=
  rehearsal.calls.countP fun call => call.1 == engine && call.2.1 == function

def argumentsOf (rehearsal : Rehearsal) (engine function : String) : List Json :=
  (rehearsal.calls.reverse.filter fun call => call.1 == engine && call.2.1 == function).map
    fun call => call.2.2

def argumentsByTarget (rehearsal : Rehearsal) : List (String × List Json) :=
  let called := (rehearsal.calls.reverse.map fun call => (call.1, call.2.1)).eraseDups
  called.map fun (engine, function) =>
    (engine ++ "." ++ function, rehearsal.argumentsOf engine function)

end Rehearsal

namespace Cue

def pick (cues : List Cue) (n : Nat) : Cue :=
  (cues[n]?).getD (cues.getLast?.getD {})

def reply (cue : Cue) (engine function : String) (arguments : Json) : Reply where
  millis := cue.millis
  outcome :=
    match cue.outcome with
    | .transient reason => .error (.transient reason)
    | .permanent reason => .error (.permanent reason)
    | .unknown => .error (.unknownFunction engine function)
    | .echo => .ok (.object [("result", arguments)])
    | .value value => .ok value

end Cue

def Engine.rehearsed (name : String) (script : List (String × List Cue)) :
    Engine Rehearsal where
  name := name
  functions := script.map Prod.fst
  call := fun function arguments rehearsal =>
    let cue := Cue.pick ((script.lookup function).getD []) (rehearsal.count name function)
    (cue.reply name function arguments,
      { calls := (name, function, arguments) :: rehearsal.calls
        cancelled := rehearsal.cancelled || cue.cancels })

end Tollgate
