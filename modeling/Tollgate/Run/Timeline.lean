import Tollgate.Clock.Rfc3339
import Tollgate.Run.StepResult
import Tollgate.Text.Lines

/-!
# Timelines

A timeline notes when steps start and end.  Its chart has one row a step: bars
in order of their starts, then the steps that were skipped.
-/

namespace Tollgate

inductive TimelineEvent.Kind where
  | started
  | completed
  | failed
  | skipped
  deriving DecidableEq, Repr

namespace TimelineEvent.Kind

def name : Kind → String
  | .started => "started"
  | .completed => "completed"
  | .failed => "failed"
  | .skipped => "skipped"

def all : List Kind := [.started, .completed, .failed, .skipped]

def ofName? (name : String) : Option Kind := all.find? fun k => k.name == name

def ofStatus : StepStatus → Kind
  | .completed | .completedWithFallback => .completed
  | .failed => .failed
  | .skipped => .skipped

end TimelineEvent.Kind

structure TimelineEvent where
  step : Nat
  kind : TimelineEvent.Kind
  moment : Moment

structure Timeline where
  start : Moment
  events : List TimelineEvent := []

namespace Timeline

def add (timeline : Timeline) (step : Nat) (kind : TimelineEvent.Kind) (moment : Moment) :
    Timeline :=
  { timeline with events := timeline.events ++ [⟨step, kind, moment⟩] }

/-- The events of a result; a step that never reached its engine does not start. -/
def eventsOf (result : StepResult) : List TimelineEvent :=
  if result.attempts = 0 then
    let kind := if result.status = .failed then .failed else .skipped
    [⟨result.number, kind, result.finishedAt⟩]
  else
    [⟨result.number, .started, result.startedAt⟩,
      ⟨result.number, .ofStatus result.status, result.finishedAt⟩]

def record (timeline : Timeline) (result : StepResult) : Timeline :=
  { timeline with events := timeline.events ++ eventsOf result }

/-- Milliseconds since the start; what came before it counts as zero. -/
def offset (timeline : Timeline) (moment : Moment) : Nat :=
  (Moment.millisBetween timeline.start moment).toNat

def put {α : Type} (step : Nat) (value : α) : List (Nat × α) → List (Nat × α)
  | [] => [(step, value)]
  | (n, v) :: rest =>
      if step < n then (step, value) :: (n, v) :: rest
      else if step = n then (step, value) :: rest
      else (n, v) :: put step value rest

def durations (timeline : Timeline) : List (Nat × Int) :=
  let step (tables : List (Nat × Nat) × List (Nat × Int)) (event : TimelineEvent) :
      List (Nat × Nat) × List (Nat × Int) :=
    let (starts, durations) := tables
    let elapsed := timeline.offset event.moment
    match event.kind with
    | .started => (put event.step elapsed starts, durations)
    | _ =>
        match starts.lookup event.step with
        | some start => (starts, put event.step ((elapsed : Int) - start) durations)
        | none => (starts, durations)
  (timeline.events.foldl step ([], [])).2

structure Span where
  start : Nat
  finish : Nat
  deriving DecidableEq, Repr

def Span.millis (span : Span) : Int := (span.finish : Int) - span.start

structure Rows where
  spans : List (Nat × Span) := []
  skipped : List Nat := []

def Rows.add (timeline : Timeline) (rows : Rows) (event : TimelineEvent) : Rows :=
  let elapsed := timeline.offset event.moment
  match event.kind with
  | .started => { rows with spans := put event.step ⟨elapsed, elapsed⟩ rows.spans }
  | .completed | .failed =>
      match rows.spans.lookup event.step with
      | some span =>
          { rows with spans := put event.step { span with finish := elapsed } rows.spans }
      | none => rows
  | .skipped =>
      { spans := rows.spans.filter fun row => row.1 != event.step
        skipped := if rows.skipped.contains event.step then rows.skipped
          else rows.skipped ++ [event.step] }

def rows (timeline : Timeline) : Rows := timeline.events.foldl (Rows.add timeline) {}

def total (timeline : Timeline) : Nat :=
  (timeline.events.map fun event => timeline.offset event.moment).foldl max 0

def width : Float := 50.0

def label (step : Nat) : String := Text.padEnd 8 ("step" ++ toString step) ++ " |"

def cells (scale : Float) (millis : Int) : Nat := (Float.ofInt millis * scale).toUInt64.toNat

def bar (scale : Float) (step : Nat) (span : Span) : String :=
  label step ++ Text.spaces (cells scale span.start) ++
    String.ofList (List.replicate (max (cells scale span.millis) 1) '#') ++
    "| (" ++ toString span.millis ++ " ms)\n"

def startsBefore (a b : Nat × Span) : Bool :=
  a.2.start < b.2.start || (a.2.start == b.2.start && a.1 ≤ b.1)

def chart (timeline : Timeline) : String :=
  let rows := timeline.rows
  let scale := if timeline.total = 0 then 0.0 else width / Float.ofNat timeline.total
  let bars := (rows.spans.mergeSort startsBefore).map fun row => bar scale row.1 row.2
  let skipped := rows.skipped.map fun step => label step ++ " skipped\n"
  "\nExecution Timeline:\n\n" ++ String.join (bars ++ skipped) ++
    "\nTotal: " ++ toString timeline.total ++ " ms\n"

def encode (timeline : Timeline) : Json :=
  .object
    [("events", .array (timeline.events.map fun event =>
        .object
          [("step_number", Json.ofNat event.step),
            ("event_type", .string event.kind.name),
            ("timestamp", .string event.moment.text)])),
      ("start_time", .string timeline.start.text)]

end Timeline

end Tollgate
