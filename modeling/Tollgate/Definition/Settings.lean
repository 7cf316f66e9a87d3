import Tollgate.Decimal.Layout
import Tollgate.Definition.Basic
import Tollgate.Expr.Parser

/-!
# The settings of a definition

Thresholds ascend and are finite, rules have distinct ids, finite non-negative
contributions, scopes that name steps of the definition, and conditions that
parse.  The first departure is the error.
-/

namespace Tollgate

inductive ConfigError where
  | inconsistentThresholds (reason : String)
  | invalidRule (rule reason : String)
  | duplicateRule (rule : String)
  | duplicateEngine (engine : String)
  | invalid (reason : String)
  | unreadable (path reason : String)
  | malformed
  deriving DecidableEq, Repr

def ConfigError.message : ConfigError → String
  | .inconsistentThresholds reason => "inconsistent risk thresholds: " ++ reason
  | .invalidRule rule reason => "rule '" ++ rule ++ "': " ++ reason
  | .duplicateRule rule => "duplicate rule id '" ++ rule ++ "'"
  | .duplicateEngine engine => "duplicate engine registration '" ++ engine ++ "'"
  | .invalid reason => "invalid configuration: " ++ reason
  | .unreadable path reason => "failed to read '" ++ path ++ "': " ++ reason
  | .malformed => "failed to parse YAML"

namespace Thresholds

def all (thresholds : Thresholds) : List Float :=
  [thresholds.autoApprove, thresholds.requireReview, thresholds.requireHuman]

def isUnusable (x : Float) : Bool := !x.isFinite || x < 0.0

def check (thresholds : Thresholds) : Except ConfigError Unit :=
  let number := Decimal.message.write
  if thresholds.all.any isUnusable then
    .error <| .inconsistentThresholds <|
      "thresholds must be finite and non-negative, got [" ++
        String.intercalate ", " (thresholds.all.map Decimal.listed.write) ++ "]"
  else if thresholds.autoApprove < thresholds.requireReview &&
      thresholds.requireReview < thresholds.requireHuman then .ok ()
  else
    .error <| .inconsistentThresholds <|
      "expected auto_approve < require_review < require_hitl, got " ++
        String.intercalate " / " (thresholds.all.map number)

end Thresholds

namespace Rule

def fault? (definition : Definition) (rule : Rule) : Option String :=
  if Thresholds.isUnusable rule.riskFactor then
    some ("risk_factor must be a non-negative number, got " ++
      Decimal.message.write rule.riskFactor)
  else if rule.kind == .escalation && rule.escalationLevel.isNone then
    some "escalation rules need an escalation_level"
  else
    match rule.scope.step?.filter fun n => (definition.step? n).isNone with
    | some n => some ("scope names unknown step " ++ toString n)
    | none =>
        if Text.isBlank rule.condition then none
        else
          match Expr.parse rule.condition with
          | .ok _ => none
          | .error error => some ("condition does not parse: " ++ error.message)

end Rule

namespace Definition

def checkRules (definition : Definition) (seen : List String) :
    List Rule → Except ConfigError Unit
  | [] => .ok ()
  | rule :: rest =>
      if Text.isBlank rule.id then .error (.invalidRule rule.id "rule id must not be empty")
      else if seen.contains rule.id then .error (.duplicateRule rule.id)
      else
        match rule.fault? definition with
        | some reason => .error (.invalidRule rule.id reason)
        | none => checkRules definition (rule.id :: seen) rest

def checkSettings (definition : Definition) : Except ConfigError Unit :=
  match definition.thresholds.check with
  | .error error => .error error
  | .ok () => definition.checkRules [] definition.rules

end Definition

end Tollgate
