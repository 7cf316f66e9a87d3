import Tollgate.Audit.Entry
import Tollgate.Proofs.Clock.Rfc3339
import Tollgate.Proofs.Document.Written

/-!
# Audit entries read back

An entry is read back from the text that is written for it exactly if its risks
are finite.  Of a risk that is not, nothing is written, and then the whole entry
is refused.
-/

namespace Tollgate

open Document

theorem Document.float_ofFloat_eq (x : Float) :
    float (Json.ofFloat x) = if x.isFinite then .ok x else .error .malformed := by
  by_cases finite : x.isFinite = true
  · rw [if_pos finite, float_ofFloat finite]
  · have absent : Json.ofFloat x = .null := by simp [Json.ofFloat, Json.Number.ofFloat?, finite]
    rw [if_neg finite, absent]
    rfl

namespace AuditEntry

def risks (entry : AuditEntry) : List Float :=
  [entry.riskBefore, entry.riskContribution, entry.riskAfter]

def IsFinite (entry : AuditEntry) : Prop := ∀ risk ∈ entry.risks, risk.isFinite = true

instance (entry : AuditEntry) : Decidable entry.IsFinite :=
  inferInstanceAs (Decidable (∀ risk ∈ entry.risks, risk.isFinite = true))

theorem isFinite_iff {entry : AuditEntry} :
    entry.IsFinite ↔ entry.riskBefore.isFinite = true ∧ entry.riskContribution.isFinite = true ∧
      entry.riskAfter.isFinite = true := by
  simp [IsFinite, risks]

/-- An entry with a duration that fits its word, at a moment that a clock shows. -/
structure IsTyped (entry : AuditEntry) : Prop where
  duration : entry.processingMs < Bound.longWord
  moment : entry.moment.IsOnClock

def members (entry : AuditEntry) : List (String × Option Json) :=
  [("run_id", some (.string entry.runId)),
    ("workflow_id", some (.string entry.workflowId)),
    ("decision_point", some (.string entry.decisionPoint)),
    ("triggered_rule_ids", some (Json.ofStrings entry.triggeredIds)),
    ("routing_decision", some (.string entry.decision.name)),
    ("intervention_type", some (.string entry.intervention.name)),
    ("risk_before", some (Json.ofFloat entry.riskBefore)),
    ("risk_contribution", some (Json.ofFloat entry.riskContribution)),
    ("risk_after", some (Json.ofFloat entry.riskAfter)),
    ("processing_time_ms", some (Json.ofNat entry.processingMs)),
    ("timestamp", some (.string entry.moment.text))]

private theorem encode_eq (entry : AuditEntry) :
    entry.encode = .object (Json.present entry.members) := rfl

theorem nodup_members (entry : AuditEntry) : (entry.members.map Prod.fst).Nodup := by
  change List.Nodup fieldNames
  decide

private theorem readMoment_text {moment : Moment} (h : moment.IsOnClock) :
    readMoment (Json.string moment.text) = .ok moment := by
  rw [readMoment, text_string, Read.ok_bind, Moment.parse?_text h]
  rfl

private theorem field?_text {entry : AuditEntry} {name content : String}
    (member : (name, some (Json.string content)) ∈ entry.members) :
    (Record.ofFields entry.members).field? name text = .ok (some content) :=
  Record.field?_some entry.nodup_members member (text_string content)

private theorem field?_risk {entry : AuditEntry} {name : String} {risk : Float}
    (member : (name, some (Json.ofFloat risk)) ∈ entry.members) :
    (Record.ofFields entry.members).field? name float =
      (if risk.isFinite then .ok risk else .error .malformed : Read Float).map some := by
  rw [← float_ofFloat_eq]
  exact Record.field?_present entry.nodup_members member _

theorem read_encode {entry : AuditEntry} (typed : entry.IsTyped) :
    AuditEntry.read entry.encode =
      if entry.IsFinite then .ok entry else .error .malformed := by
  have distinct := entry.nodup_members
  have runId : (Record.ofFields entry.members).field? "run_id" text = .ok (some entry.runId) :=
    field?_text (by simp [members])
  have workflowId : (Record.ofFields entry.members).field? "workflow_id" text =
      .ok (some entry.workflowId) := field?_text (by simp [members])
  have decisionPoint : (Record.ofFields entry.members).field? "decision_point" text =
      .ok (some entry.decisionPoint) := field?_text (by simp [members])
  have triggeredIds : (Record.ofFields entry.members).field? "triggered_rule_ids" (list text) =
      .ok (some entry.triggeredIds) := by
    have reads : list text (Json.array (entry.triggeredIds.map Json.string)) =
        .ok (entry.triggeredIds.map id) := list_array fun item _ => text_string item
    rw [List.map_id] at reads
    exact Record.field?_some distinct (by simp [members, Json.ofStrings]) reads
  have decision : (Record.ofFields entry.members).field? "routing_decision"
      (named Decision.ofName?) = .ok (some entry.decision) :=
    Record.field?_some distinct (by simp [members])
      (named_string (Decision.ofName?_name entry.decision))
  have intervention : (Record.ofFields entry.members).field? "intervention_type"
      (named Intervention.ofName?) = .ok (some entry.intervention) :=
    Record.field?_some distinct (by simp [members])
      (named_string (Intervention.ofName?_name entry.intervention))
  have riskBefore := field?_risk (show ("risk_before", some (Json.ofFloat entry.riskBefore)) ∈
    entry.members by simp [members])
  have riskContribution := field?_risk (show ("risk_contribution",
    some (Json.ofFloat entry.riskContribution)) ∈ entry.members by simp [members])
  have riskAfter := field?_risk (show ("risk_after", some (Json.ofFloat entry.riskAfter)) ∈
    entry.members by simp [members])
  have duration : (Record.ofFields entry.members).field? "processing_time_ms"
      (natural Bound.longWord) = .ok (some entry.processingMs) :=
    Record.field?_some distinct (by simp [members])
      (natural_ofNat (Nat.le_refl _) typed.duration).2
  have moment : (Record.ofFields entry.members).field? "timestamp" readMoment =
      .ok (some entry.moment) :=
    Record.field?_some distinct (by simp [members]) (readMoment_text typed.moment)
  unfold AuditEntry.read
  rw [encode_eq, Record.of_present distinct]
  simp only [Read.ok_bind, decision, decisionPoint, duration, intervention, moment, runId,
    triggeredIds, workflowId, riskBefore, riskContribution, riskAfter, Record.require, orMalformed,
    isFinite_iff]
  by_cases before : entry.riskBefore.isFinite = true
  · by_cases contribution : entry.riskContribution.isFinite = true
    · by_cases after : entry.riskAfter.isFinite = true
      · simp only [before, contribution, after, and_self, if_true]
        rfl
      · simp only [before, contribution, after, if_true]
        rfl
    · simp only [before, contribution, if_true]
      rfl
  · simp only [before]
    rfl

open Json (IsLegible written)

private theorem alike_readMoment : Alike readMoment readMoment := by
  intro value legible
  unfold readMoment
  rw [alike_text value legible]

theorem alike_read : Alike AuditEntry.read AuditEntry.read := by
  intro value legible
  unfold AuditEntry.read
  rw [Record.of_written legible]
  cases shape : Record.of fieldNames value with
  | error error => rfl
  | ok record =>
      have members := Record.isLegible_of_of legible shape
      rw [Except.map, Read.ok_bind, Read.ok_bind]
      simp only [Record.field?_written members alike_text,
        Record.field?_written members (alike_list alike_text),
        Record.field?_written members (alike_named _), Record.field?_written members alike_float,
        Record.field?_written members (alike_natural _),
        Record.field?_written members alike_readMoment]

def HasLegibleRisks (entry : AuditEntry) : Prop :=
  ∀ risk ∈ entry.risks, ∀ finite : risk.isFinite = true, (Json.Number.float risk finite).IsLegible

instance (entry : AuditEntry) : Decidable entry.HasLegibleRisks :=
  inferInstanceAs (Decidable (∀ risk ∈ entry.risks, ∀ finite : risk.isFinite = true,
    (Json.Number.float risk finite).IsLegible))

private theorem isLegible_ofFloat {x : Float}
    (h : ∀ finite : x.isFinite = true, (Json.Number.float x finite).IsLegible) :
    IsLegible (Json.ofFloat x) := by
  by_cases finite : x.isFinite = true
  · have number : Json.ofFloat x = .number (.float x finite) := by
      simp [Json.ofFloat, Json.Number.ofFloat?, finite]
    rw [number]
    exact .number (h finite)
  · have absent : Json.ofFloat x = .null := by simp [Json.ofFloat, Json.Number.ofFloat?, finite]
    rw [absent]
    exact .null

private theorem isLegible_ofStrings (texts : List String) : IsLegible (Json.ofStrings texts) := by
  refine .array fun item member => ?_
  obtain ⟨text, _, rfl⟩ := List.mem_map.mp member
  exact .string text

private theorem isLegible_ofNat {n : Nat} (wide : n < Bound.longWord) :
    IsLegible (Json.ofNat n) := by
  obtain ⟨range, number⟩ := ofNat_eq wide
  rw [number]
  exact .number (Json.Number.isLegible_natural range)

private theorem isLegible_encode {entry : AuditEntry} (typed : entry.IsTyped)
    (legible : entry.HasLegibleRisks) : IsLegible entry.encode := by
  have before := isLegible_ofFloat (legible entry.riskBefore (by simp [risks]))
  have contribution := isLegible_ofFloat (legible entry.riskContribution (by simp [risks]))
  have after := isLegible_ofFloat (legible entry.riskAfter (by simp [risks]))
  have duration := isLegible_ofNat typed.duration
  have triggered := isLegible_ofStrings entry.triggeredIds
  refine .object ?_
  simp only [List.forall_mem_cons]
  exact ⟨.string _, .string _, .string _, triggered, .string _, .string _, before, contribution,
    after, duration, .string _, List.forall_mem_nil _⟩

theorem read_compact {entry : AuditEntry} (typed : entry.IsTyped)
    (legible : entry.HasLegibleRisks) :
    ((Json.Written.parse? entry.encode.compact).map fun document => AuditEntry.read document) =
      some (if entry.IsFinite then .ok entry else .error .malformed) := by
  have whole := isLegible_encode typed legible
  rw [Json.parse?_compact whole, Option.map_some, alike_read _ whole, read_encode typed]

end AuditEntry

end Tollgate
