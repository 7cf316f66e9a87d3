import Tollgate.Definition.Document
import Tollgate.Definition.Settings
import Tollgate.Document.OfYaml
import Tollgate.Engine.Retry

/-!
# Configuration

How many steps run at once, how retries are spaced and how long an attempt may
take.  Every setting has a default.
-/

namespace Tollgate

structure RunConfig where
  maxParallel : Nat := 4
  baseDelayMs : Nat := 500
  multiplier : Float := 2.0
  maxDelayMs : Nat := 30000
  timeoutSeconds : Nat := 60
  auditLog : Option String := none

namespace RunConfig

def fieldNames : List String :=
  ["max_parallel", "base_delay_ms", "backoff_multiplier", "max_delay_ms",
    "default_timeout_seconds", "audit_log"]

open Document in
def read {α : Type} [Document α] (doc : α) : Read RunConfig := do
  let record ← Record.of fieldNames doc
  let auditLog ← record.field? "audit_log" (optional text)
  let multiplier ← record.field? "backoff_multiplier" float
  let baseDelay ← record.field? "base_delay_ms" (natural Bound.longWord)
  let timeout ← record.field? "default_timeout_seconds" (natural Bound.longWord)
  let maxDelay ← record.field? "max_delay_ms" (natural Bound.longWord)
  let maxParallel ← record.field? "max_parallel" (natural Bound.longWord)
  let default : RunConfig := {}
  return {
    maxParallel := maxParallel.getD default.maxParallel
    baseDelayMs := baseDelay.getD default.baseDelayMs
    multiplier := multiplier.getD default.multiplier
    maxDelayMs := maxDelay.getD default.maxDelayMs
    timeoutSeconds := timeout.getD default.timeoutSeconds
    auditLog := auditLog.getD default.auditLog }

def encode (config : RunConfig) : Json :=
  .object <|
    [("max_parallel", Json.ofNat config.maxParallel),
      ("base_delay_ms", Json.ofNat config.baseDelayMs),
      ("backoff_multiplier", Json.ofFloat config.multiplier),
      ("max_delay_ms", Json.ofNat config.maxDelayMs),
      ("default_timeout_seconds", Json.ofNat config.timeoutSeconds)] ++
    Json.optionalField "audit_log" (config.auditLog.map .string)

def check (config : RunConfig) : Except ConfigError Unit :=
  if config.maxParallel = 0 then .error (.invalid "max_parallel must be at least 1")
  else if !config.multiplier.isFinite || config.multiplier < 1.0 then
    .error <| .invalid <|
      "backoff_multiplier must be >= 1, got " ++ Decimal.message.write config.multiplier
  else if config.maxDelayMs < config.baseDelayMs then
    .error <| .invalid
      s!"max_delay_ms ({config.maxDelayMs}) is below base_delay_ms ({config.baseDelayMs})"
  else if config.timeoutSeconds = 0 then
    .error (.invalid "default_timeout_seconds must be at least 1")
  else .ok ()

/-- Reads and checks a configuration.  In a blank text every setting has its default. -/
def ofYaml (text : String) : Except ConfigError RunConfig := do
  let config ←
    if Text.isBlank text then pure {}
    else
      match Yaml.parse? (Outline.flat fieldNames) text with
      | none => .error .malformed
      | some node => (read node).mapError fun _ => .malformed
  config.check
  return config

def policy (config : RunConfig) (retries : Nat) (timeoutSeconds : Option Nat) : RetryPolicy where
  maxRetries := retries
  baseDelayMs := config.baseDelayMs
  multiplier := config.multiplier
  maxDelayMs := config.maxDelayMs
  timeoutMs := timeoutSeconds.getD config.timeoutSeconds * 1000

end RunConfig

end Tollgate
