import Tollgate.Command.Options
import Tollgate.Command.Shell
import Tollgate.Command.Summary
import Tollgate.Definition.Load
import Tollgate.Engine.Arithmetic
import Tollgate.Run.Session

/-!
# The command line

One command runs or analyses one definition.  It ends with 0 for a completed
run, with 2 for a run that waits for approval, and with 1 otherwise.
-/

namespace Tollgate.Command

def banner : String :=
  Text.unlines ["", "FlowGuard v0.1.0", "Risk-Aware Workflow Execution Engine", ""]

def version : String := "FlowGuard 0.1.0\n"

def usage : String := Text.unlines
  ["Usage: flowguard [OPTIONS] <WORKFLOW_FILE>",
    "",
    "Arguments:",
    "  <WORKFLOW_FILE>       Path to workflow definition YAML file",
    "",
    "Options:",
    "  --input FILE          JSON file with the run input",
    "  --input-json JSON     Run input given inline",
    "  --user ID             Requesting user (default: cli)",
    "  --config FILE         Engine configuration YAML",
    "  --audit-log FILE      Append audit entries to a JSON-lines file",
    "  --parallel N          Maximum concurrent steps",
    "  --analyze             Print the dependency analysis and exit",
    "  --json                Print the run record as JSON",
    "  --verbose             Enable debug logging",
    "  --help                Show this help message",
    "  --version             Show version information",
    "",
    "Examples:",
    "  flowguard credit.yaml --input request.json",
    "  flowguard credit.yaml --analyze",
    "  flowguard credit.yaml --audit-log audit.jsonl --parallel 8"]

inductive CommandError where
  | definition (path : String) (error : ConfigError)
  | config (error : ConfigError)
  | unreadableInput (path : String) (error : FileError)
  | malformedInput
  | store (error : StoreError)
  | audit (error : AuditError)
  | run (error : RunError)
  deriving DecidableEq, Repr

def CommandError.message : CommandError → String
  | .definition path error =>
      "Could not load workflow from '" ++ path ++ "': " ++ error.message
  | .config error => error.message
  | .unreadableInput path error => "Could not read input '" ++ path ++ "': " ++ error.message
  | .malformedInput => "malformed JSON"
  | .store error => error.message
  | .audit error => error.message
  | .run error => error.message

def CommandError.ofLog (error : FileError) : CommandError :=
  .audit (.inaccessible error.message)

def exitCode : RunStatus → Nat
  | .completed => 0
  | .awaitingApproval => 2
  | .failed | .running => 1

variable {m : Type → Type} [Monad m] [Shell m]

def readConfigText (path : String) : ExceptT ConfigError m String := do
  match ← Shell.read (m := m) path with
  | .ok text => return text
  | .error error => throw (.unreadable path error.message)

def loadDefinition (path : String) : ExceptT ConfigError m Definition := do
  Definition.ofYaml (← readConfigText path)

def loadConfig (options : Options) : ExceptT ConfigError m RunConfig := do
  let config ← match options.config with
    | some path => do RunConfig.ofYaml (← readConfigText path)
    | none => pure {}
  let config :=
    { config with
      maxParallel := options.maxParallel.getD config.maxParallel
      auditLog := options.auditLog.orElse fun _ => config.auditLog }
  config.check
  return config

/-- The input file or the input given inline, and an empty object without either. -/
def loadInput (options : Options) : ExceptT CommandError m Json := do
  let text ← match options.inputFile, options.inputText with
    | some path, _ => do
        match ← Shell.read (m := m) path with
        | .ok text => pure text
        | .error error => throw (.unreadableInput path error)
    | none, some text => pure text
    | none, none => pure "\x7b\x7d"
  match Json.parse? text with
  | some input => return input
  | none => throw .malformedInput

def registry : Registry Unit :=
  let engine : Engine Unit := Arithmetic.engine
  { engines := [(engine.name, engine)] }

def execute (definition : Definition) (options : Options) (config : RunConfig) (input : Json) :
    ExceptT CommandError m Execution := do
  let store ← (({} : Store).insert definition).mapError CommandError.store
  let ready ← match config.auditLog with
    | some path => Shell.openLog (m := m) path
    | none => pure (.ok ())
  ready.mapError CommandError.ofLog
  let request : RunRequest :=
    { definition := definition.id
      input
      user := options.user
      runId := ← (Shell.freshId : m String)
      now := ← (Shell.now : m Moment) }
  let env : Environment Unit String :=
    { executor := { registry, config }
      sink := Sink.log
      cancelled := fun _ => false }
  let after := ({ store } : Session).execute env request () ""
  let written ← match config.auditLog with
    | some path => Shell.append (m := m) path after.log
    | none => pure (.ok ())
  written.mapError CommandError.ofLog
  after.outcome.mapError CommandError.run

def analyze (definition : Definition) : m Nat := do
  let analysis := Plan.analyze definition.steps
  Shell.print (analysis.encode.pretty ++ "\n")
  return if analysis.errors.isEmpty then 0 else 1

def work (options : Options) : ExceptT CommandError m Nat := do
  let path := options.workflow
  let definition ← ExceptT.adapt (.definition path) (loadDefinition (m := m) path)
  if options.analyze then return ← analyze (m := m) definition
  let config ← ExceptT.adapt .config (loadConfig (m := m) options)
  let input ← loadInput options
  let execution ← execute definition options config input
  Shell.print (m := m) <|
    if options.json then execution.encode.pretty ++ "\n" else execution.summary
  return exitCode execution.status

def fail (message : String) : m Nat := do
  Shell.complain ("\nError: " ++ message ++ "\n")
  return 1

def perform (arguments : List String) : m Nat := do
  match Options.read arguments with
  | .error error =>
      Shell.complain ("Error: " ++ error.message ++ "\n\n")
      Shell.print usage
      fail error.message
  | .ok .help => do Shell.print usage; return 0
  | .ok .version => do Shell.print version; return 0
  | .ok (.work options) => do
      if !options.json then Shell.print banner
      match ← (work options).run with
      | .ok code => return code
      | .error error => fail error.message

end Tollgate.Command
