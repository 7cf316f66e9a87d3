/-!
# Decisions

What a triggered rule asks for.  Decisions are ranked by severity, and those
from `pause` up stop a run until a person has approved it.
-/

namespace Tollgate

inductive Decision where
  | proceed
  | warn
  | pause
  | block
  | escalate
  deriving DecidableEq, Repr

namespace Decision

def severity : Decision → Nat
  | .proceed => 0
  | .warn => 1
  | .pause => 2
  | .escalate => 3
  | .block => 4

/-- The more severe of two decisions; between equals the first. -/
def mostSevere (a b : Decision) : Decision :=
  if a.severity < b.severity then b else a

def isStop : Decision → Bool
  | .pause | .block | .escalate => true
  | .proceed | .warn => false

def name : Decision → String
  | .proceed => "continue"
  | .warn => "warn"
  | .pause => "pause"
  | .block => "block"
  | .escalate => "escalate"

def text : Decision → String
  | .proceed => "CONTINUE"
  | .warn => "WARN"
  | .pause => "PAUSE"
  | .block => "BLOCK"
  | .escalate => "ESCALATE"

def all : List Decision := [.proceed, .warn, .pause, .block, .escalate]

def ofName? (name : String) : Option Decision := all.find? fun d => d.name == name

theorem ofName?_name (d : Decision) : ofName? d.name = some d := by
  cases d <;> decide

end Decision

end Tollgate
