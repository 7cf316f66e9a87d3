import Tollgate.Definition.Load
import Tollgate.Proofs.Definition.Accepted
import Tollgate.Proofs.Document.Record

/-!
# Saved definitions

A definition is read back as it was written, apart from one value: a fallback
that is `null` looks like no fallback at all.
-/

namespace Tollgate

open Document

theorem getD_map_some {β : Type} (value : Option β) : (value.map some).getD none = value := by
  cases value <;> rfl

theorem FailurePolicy.ofName?_name (policy : FailurePolicy) :
    ofName? policy.name = some policy := by
  cases policy <;> decide

namespace Step

structure IsTyped (step : Step) : Prop where
  number : step.number < Bound.word
  retries : step.retries < Bound.word
  timeout : ∀ seconds, step.timeoutSeconds = some seconds → seconds < Bound.longWord
  inputs : (step.inputs.map Prod.fst).Pairwise (· < ·)

def written (step : Step) : Step :=
  { step with fallback := step.fallback.filter fun value => !value.isNull }

theorem written_eq_iff {step : Step} : step.written = step ↔ step.fallback ≠ some .null := by
  obtain ⟨_, _, _, _, _, _, _, _, _, fallback, _⟩ := step
  unfold written
  rcases fallback with _ | (_ | _ | _ | _ | _ | _) <;> simp [Option.filter_some, Json.isNull]

def members (step : Step) : List (String × Option Json) :=
  [("step_number", some (Json.ofNat step.number)),
    ("name", some (.string step.name)),
    ("tool", some (.string step.tool)),
    ("function", some (.string step.function)),
    ("inputs", some (.object step.inputs)),
    ("output", some (.string step.output)),
    ("condition", step.condition.map .string),
    ("retry_count", some (Json.ofNat step.retries)),
    ("on_error", some (.string step.onError.name)),
    ("fallback", step.fallback),
    ("timeout_seconds", step.timeoutSeconds.map Json.ofNat)]

private theorem encode_eq (step : Step) : step.encode = .object (Json.present step.members) := by
  simp [encode, members, Json.present, Json.optionalField]

private theorem nodup_members (step : Step) : (step.members.map Prod.fst).Nodup := by
  change List.Nodup ["step_number", "name", "tool", "function", "inputs", "output", "condition",
    "retry_count", "on_error", "fallback", "timeout_seconds"]
  decide

theorem read_encode {step : Step} (typed : step.IsTyped) :
    Step.read step.encode = .ok step.written := by
  have distinct := step.nodup_members
  have condition : (Record.ofFields step.members).field? "condition" (optional text) =
      .ok (step.condition.map some) :=
    Record.field?_optional distinct .string (by simp [members]) fun c _ => ⟨rfl, text_string c⟩
  obtain ⟨kept, fallback, keeps⟩ := Record.field?_value distinct
    (show ("fallback", step.fallback) ∈ step.members by simp [members])
  have function : (Record.ofFields step.members).field? "function" text =
      .ok (some step.function) :=
    Record.field?_some distinct (by simp [members]) (text_string _)
  have inputs : (Record.ofFields step.members).field? "inputs" fields = .ok (some step.inputs) :=
    Record.field?_some distinct (by simp [members]) (fields_object typed.inputs)
  have name : (Record.ofFields step.members).field? "name" text = .ok (some step.name) :=
    Record.field?_some distinct (by simp [members]) (text_string _)
  have onError : (Record.ofFields step.members).field? "on_error" (named FailurePolicy.ofName?) =
      .ok (some step.onError) :=
    Record.field?_some distinct (by simp [members])
      (named_string (FailurePolicy.ofName?_name step.onError))
  have output : (Record.ofFields step.members).field? "output" text = .ok (some step.output) :=
    Record.field?_some distinct (by simp [members]) (text_string _)
  have retries : (Record.ofFields step.members).field? "retry_count" (natural Bound.word) =
      .ok (some step.retries) :=
    Record.field?_some distinct (by simp [members]) (natural_ofNat (by decide) typed.retries).2
  have number : (Record.ofFields step.members).field? "step_number" (natural Bound.word) =
      .ok (some step.number) :=
    Record.field?_some distinct (by simp [members]) (natural_ofNat (by decide) typed.number).2
  have timeout : (Record.ofFields step.members).field? "timeout_seconds"
      (optional (natural Bound.longWord)) = .ok (step.timeoutSeconds.map some) :=
    Record.field?_optional distinct Json.ofNat (by simp [members]) fun seconds given =>
      natural_ofNat (Nat.le_refl _) (typed.timeout seconds given)
  have tool : (Record.ofFields step.members).field? "tool" text = .ok (some step.tool) :=
    Record.field?_some distinct (by simp [members]) (text_string _)
  unfold Step.read
  rw [encode_eq, Record.of_present distinct]
  simp only [Read.ok_bind, condition, fallback, function, inputs, name, onError, output, retries,
    number, timeout, tool, Record.require, orMalformed, keeps, Option.getD_some, getD_map_some]
  rfl

end Step

namespace RuleScope

theorem read_encode {scope : RuleScope} (fits : ∀ n, scope = .step n → n < Bound.word) :
    RuleScope.read scope.encode = .ok scope := by
  cases scope with
  | any => rfl
  | step n =>
      have small := fits n rfl
      have reads := (natural_ofNat (show Bound.word ≤ Bound.longWord by decide) small).2
      obtain ⟨range, written⟩ := ofNat_eq (Nat.lt_trans small (by decide))
      unfold encode
      dsimp only
      rw [written] at reads ⊢
      change (natural Bound.word (Json.number (.integer n range))).map RuleScope.step = _
      rw [reads]
      rfl

end RuleScope

namespace Rule

structure IsTyped (rule : Rule) : Prop where
  level : ∀ n, rule.escalationLevel = some n → n < Bound.byte
  scope : ∀ n, rule.scope = .step n → n < Bound.word

def members (rule : Rule) : List (String × Option Json) :=
  [("id", some (.string rule.id)),
    ("kind", some (.string rule.kind.name)),
    ("scope", some rule.scope.encode),
    ("condition", some (.string rule.condition)),
    ("risk_factor", some (Json.ofFloat rule.riskFactor)),
    ("action", some (.string rule.action.name)),
    ("message", if rule.message = "" then none else some (.string rule.message)),
    ("escalation_level", rule.escalationLevel.map Json.ofNat),
    ("enabled", some (.bool rule.enabled))]

private theorem encode_eq (rule : Rule) : rule.encode = .object (Json.present rule.members) := by
  simp [encode, members, Json.present, Json.optionalField]

private theorem nodup_members (rule : Rule) : (rule.members.map Prod.fst).Nodup := by
  change List.Nodup ["id", "kind", "scope", "condition", "risk_factor", "action", "message",
    "escalation_level", "enabled"]
  decide

theorem read_encode {rule : Rule} (typed : rule.IsTyped)
    (finite : rule.riskFactor.isFinite = true) : Rule.read rule.encode = .ok rule := by
  have distinct := rule.nodup_members
  have action : (Record.ofFields rule.members).field? "action" (named Decision.ofName?) =
      .ok (some rule.action) :=
    Record.field?_some distinct (by simp [members])
      (named_string (Decision.ofName?_name rule.action))
  have condition : (Record.ofFields rule.members).field? "condition" text =
      .ok (some rule.condition) :=
    Record.field?_some distinct (by simp [members]) (text_string _)
  have enabled : (Record.ofFields rule.members).field? "enabled" bool = .ok (some rule.enabled) :=
    Record.field?_some distinct (by simp [members]) (bool_bool _)
  have level : (Record.ofFields rule.members).field? "escalation_level"
      (optional (natural Bound.byte)) = .ok (rule.escalationLevel.map some) :=
    Record.field?_optional distinct Json.ofNat (by simp [members]) fun n given =>
      natural_ofNat (by decide) (typed.level n given)
  have id : (Record.ofFields rule.members).field? "id" text = .ok (some rule.id) :=
    Record.field?_some distinct (by simp [members]) (text_string _)
  have kind : (Record.ofFields rule.members).field? "kind" (named RuleKind.ofName?) =
      .ok (some rule.kind) :=
    Record.field?_some distinct (by simp [members])
      (named_string (RuleKind.ofName?_name rule.kind))
  obtain ⟨kept, message, keeps⟩ : ∃ kept, (Record.ofFields rule.members).field? "message" text =
      .ok kept ∧ kept.getD "" = rule.message := by
    by_cases empty : rule.message = ""
    · exact ⟨none, Record.field?_none distinct (by simp [members, empty]) _, empty.symm⟩
    · exact ⟨some rule.message,
        Record.field?_some distinct (by simp [members, empty]) (text_string _), rfl⟩
  have riskFactor : (Record.ofFields rule.members).field? "risk_factor" float =
      .ok (some rule.riskFactor) :=
    Record.field?_some distinct (by simp [members]) (float_ofFloat finite)
  have scope : (Record.ofFields rule.members).field? "scope" RuleScope.read =
      .ok (some rule.scope) :=
    Record.field?_some distinct (by simp [members]) (RuleScope.read_encode typed.scope)
  unfold Rule.read
  rw [encode_eq, Record.of_present distinct]
  simp only [Read.ok_bind, action, condition, enabled, level, id, kind, message, riskFactor, scope,
    Record.require, orMalformed, keeps, Option.getD_some, getD_map_some]
  rfl

end Rule

namespace Thresholds

def members (thresholds : Thresholds) : List (String × Option Json) :=
  [("auto_approve", some (Json.ofFloat thresholds.autoApprove)),
    ("require_review", some (Json.ofFloat thresholds.requireReview)),
    ("require_hitl", some (Json.ofFloat thresholds.requireHuman))]

private theorem encode_eq (thresholds : Thresholds) :
    thresholds.encode = .object (Json.present thresholds.members) := by
  simp [encode, members, Json.present, Json.optionalField]

private theorem nodup_members (thresholds : Thresholds) :
    (thresholds.members.map Prod.fst).Nodup := by
  change List.Nodup ["auto_approve", "require_review", "require_hitl"]
  decide

theorem read_encode {thresholds : Thresholds} (finite : ∀ x ∈ thresholds.all, x.isFinite = true) :
    Thresholds.read thresholds.encode = .ok thresholds := by
  have distinct := thresholds.nodup_members
  have autoApprove : (Record.ofFields thresholds.members).field? "auto_approve" float =
      .ok (some thresholds.autoApprove) :=
    Record.field?_some distinct (by simp [members]) (float_ofFloat (finite _ (by simp [all])))
  have requireHuman : (Record.ofFields thresholds.members).field? "require_hitl" float =
      .ok (some thresholds.requireHuman) :=
    Record.field?_some distinct (by simp [members]) (float_ofFloat (finite _ (by simp [all])))
  have requireReview : (Record.ofFields thresholds.members).field? "require_review" float =
      .ok (some thresholds.requireReview) :=
    Record.field?_some distinct (by simp [members]) (float_ofFloat (finite _ (by simp [all])))
  unfold Thresholds.read
  rw [encode_eq, Record.of_present distinct]
  simp only [Read.ok_bind, autoApprove, requireHuman, requireReview, Option.getD_some]
  rfl

theorem isFinite_of_usable {x : Float} (usable : isUnusable x = false) : x.isFinite = true := by
  unfold isUnusable at usable
  simpa using (Bool.or_eq_false_iff.mp usable).1

end Thresholds

namespace Definition

structure IsTyped (definition : Definition) : Prop where
  steps : ∀ step ∈ definition.steps, step.IsTyped
  rules : ∀ rule ∈ definition.rules, rule.IsTyped

def written (definition : Definition) : Definition :=
  { definition with steps := definition.steps.map Step.written }

theorem written_eq_iff {definition : Definition} :
    definition.written = definition ↔ ∀ step ∈ definition.steps, step.fallback ≠ some .null := by
  have same : definition.written = definition ↔
      definition.steps.map Step.written = definition.steps := by
    obtain ⟨_, _, _, _, _, steps, _⟩ := definition
    simp [written]
  have each : definition.steps.map Step.written = definition.steps.map (fun step => step) ↔
      ∀ step ∈ definition.steps, step.written = step := List.map_inj_left
  rw [List.map_id'] at each
  exact (same.trans each).trans (forall₂_congr fun _ _ => Step.written_eq_iff)

def members (definition : Definition) : List (String × Option Json) :=
  [("id", some (.string definition.id)),
    ("version", some (.string definition.version)),
    ("name", some (.string definition.name)),
    ("description", definition.description.map .string),
    ("thresholds", some definition.thresholds.encode),
    ("steps", some (.array (definition.steps.map Step.encode))),
    ("rules", if definition.rules.isEmpty then none
      else some (.array (definition.rules.map Rule.encode)))]

private theorem encode_eq (definition : Definition) :
    definition.encode = .object (Json.present definition.members) := by
  simp [encode, members, Json.present, Json.optionalField]

private theorem nodup_members (definition : Definition) :
    (definition.members.map Prod.fst).Nodup := by
  change List.Nodup ["id", "version", "name", "description", "thresholds", "steps", "rules"]
  decide

theorem read_encode {definition : Definition} (typed : definition.IsTyped)
    (thresholds : ∀ x ∈ definition.thresholds.all, Thresholds.isUnusable x = false)
    (contributions : ∀ rule ∈ definition.rules, Thresholds.isUnusable rule.riskFactor = false) :
    Definition.read definition.encode = .ok definition.written := by
  have distinct := definition.nodup_members
  have description : (Record.ofFields definition.members).field? "description" (optional text) =
      .ok (definition.description.map some) :=
    Record.field?_optional distinct .string (by simp [members]) fun d _ => ⟨rfl, text_string d⟩
  have id : (Record.ofFields definition.members).field? "id" text = .ok (some definition.id) :=
    Record.field?_some distinct (by simp [members]) (text_string _)
  have name : (Record.ofFields definition.members).field? "name" text =
      .ok (some definition.name) :=
    Record.field?_some distinct (by simp [members]) (text_string _)
  obtain ⟨kept, rules, keeps⟩ : ∃ kept, (Record.ofFields definition.members).field? "rules"
      (list Rule.read) = .ok kept ∧ kept.getD [] = definition.rules := by
    cases none_given : definition.rules.isEmpty with
    | true =>
        exact ⟨none, Record.field?_none distinct (by simp [members, none_given]) _,
          (List.isEmpty_iff.mp none_given).symm⟩
    | false =>
        have reads := list_array (fun rule member => Rule.read_encode (typed.rules rule member)
          (Thresholds.isFinite_of_usable (contributions rule member)))
        rw [List.map_id'] at reads
        exact ⟨_, Record.field?_some distinct (by simp [members, none_given]) reads, rfl⟩
  have steps : (Record.ofFields definition.members).field? "steps" (list Step.read) =
      .ok (some (definition.steps.map Step.written)) :=
    Record.field?_some distinct (by simp [members])
      (list_array fun step member => Step.read_encode (typed.steps step member))
  have thresholds : (Record.ofFields definition.members).field? "thresholds" Thresholds.read =
      .ok (some definition.thresholds) :=
    Record.field?_some distinct (by simp [members]) (Thresholds.read_encode fun x member =>
      Thresholds.isFinite_of_usable (thresholds x member))
  have version : (Record.ofFields definition.members).field? "version" text =
      .ok (some definition.version) :=
    Record.field?_some distinct (by simp [members]) (text_string _)
  unfold Definition.read
  rw [encode_eq, Record.of_present distinct]
  simp only [Read.ok_bind, description, id, name, rules, steps, thresholds, version,
    Record.require, orMalformed, keeps, Option.getD_some, getD_map_some]
  rfl

private theorem isNone_step?_written (definition : Definition) (n : Nat) :
    (definition.written.step? n).isNone = (definition.step? n).isNone := by
  have same : definition.written.step? n = (definition.step? n).map Step.written :=
    List.find?_map
  rw [same, Option.isNone_map]

private theorem checkRules_written (definition : Definition) (seen : List String)
    (rules : List Rule) :
    definition.written.checkRules seen rules = definition.checkRules seen rules := by
  have fault (rule : Rule) : rule.fault? definition.written = rule.fault? definition := by
    unfold Rule.fault?
    simp only [isNone_step?_written]
  induction rules generalizing seen with
  | nil => rfl
  | cons rule rest ih =>
      unfold checkRules
      rw [fault, ih]

private theorem checkSettings_written (definition : Definition) :
    definition.written.checkSettings = definition.checkSettings := by
  unfold checkSettings
  rw [checkRules_written]
  rfl

private theorem sorted_of_ordered {definition : Definition}
    (ordered : definition.steps.Pairwise fun a b => a.number ≤ b.number) :
    definition.sorted = definition := by
  unfold sorted
  rw [List.mergeSort_of_pairwise (ordered.imp fun le => decide_eq_true le)]

private theorem ordered_written {definition : Definition}
    (ordered : definition.steps.Pairwise fun a b => a.number ≤ b.number) :
    definition.written.steps.Pairwise fun a b => a.number ≤ b.number :=
  List.pairwise_map.mpr ordered

theorem load_of_check {definition : Definition} (checked : definition.check = .ok ())
    (typed : definition.IsTyped)
    (ordered : definition.steps.Pairwise fun a b => a.number ≤ b.number) :
    load definition.encode = .ok definition.written := by
  have sound := isSound_of_checkRules (checkRules_of_check checked)
  have reads := read_encode typed (isAccepted_of_check checked).usable fun rule member =>
    (sound rule member).usable
  unfold load
  rw [reads]
  dsimp only
  rw [sorted_of_ordered (ordered_written ordered), checkSettings_written,
    checkSettings_of_check checked]

/-- A saved definition of the store loads again, and comes back as it was unless a fallback of
its steps is `null`. -/
theorem load_encode_iff {store later : Store} {definition : Definition}
    (inserted : store.insert definition = .ok later) (typed : definition.IsTyped)
    (ordered : definition.steps.Pairwise fun a b => a.number ≤ b.number) :
    load definition.encode = .ok definition.written ∧
      (load definition.encode = .ok definition ↔
        ∀ step ∈ definition.steps, step.fallback ≠ some .null) := by
  have loads := load_of_check (check_of_insert inserted).1 typed ordered
  refine ⟨loads, ?_⟩
  rw [loads, Except.ok.injEq, written_eq_iff]

def guarded (fallback : Json) : Definition where
  id := "guarded"
  description := some ""
  steps :=
    [{ (Step.make 1 "math" "identity").withInput "value" .null with
        condition := some ""
        retries := 2
        onError := .continue
        fallback := some fallback
        timeoutSeconds := some 5 }]
  rules := [{ Rule.escalation "late" (some 1) "" 0.25 2 with message := "too late" }]

theorem isTyped_guarded (fallback : Json) : (guarded fallback).IsTyped where
  steps step member := by
    obtain rfl := List.mem_singleton.mp member
    exact
      { number := show 1 < Bound.word by decide
        retries := show 2 < Bound.word by decide
        timeout := by
          rintro _ ⟨⟩
          decide
        inputs := List.pairwise_singleton _ _ }
  rules rule member := by
    obtain rfl := List.mem_singleton.mp member
    exact
      { level := by
          rintro _ ⟨⟩
          decide
        scope := by
          rintro _ ⟨⟩
          decide }

theorem load_encode_iff_guarded :
    (∃ later, Store.insert {} (guarded (.object [])) = .ok later) ∧
      load (guarded (.object [])).encode = .ok (guarded (.object [])) := by
  obtain ⟨later, inserted⟩ : ∃ later, Store.insert {} (guarded (.object [])) = .ok later :=
    exists_insert_of_isOk (by decide +kernel)
  have ordered := List.pairwise_singleton (fun a b : Step => a.number ≤ b.number)
  refine ⟨⟨later, inserted⟩, ?_⟩
  rw [(load_encode_iff inserted (isTyped_guarded _) (ordered _)).2]
  intro step member
  obtain rfl := List.mem_singleton.mp member
  exact nofun

theorem load_encode_ne_guarded :
    (∃ later, Store.insert {} (guarded .null) = .ok later) ∧ (guarded .null).IsTyped ∧
      ((guarded .null).steps.Pairwise fun a b => a.number ≤ b.number) ∧
      load (guarded .null).encode ≠ .ok (guarded .null) := by
  obtain ⟨later, inserted⟩ : ∃ later, Store.insert {} (guarded .null) = .ok later :=
    exists_insert_of_isOk (by decide +kernel)
  have ordered : (guarded .null).steps.Pairwise fun a b => a.number ≤ b.number :=
    List.pairwise_singleton _ _
  refine ⟨⟨later, inserted⟩, isTyped_guarded _, ordered, ?_⟩
  rw [load_of_check (check_of_insert inserted).1 (isTyped_guarded _) ordered]
  intro same
  injection same with same
  exact written_eq_iff.mp same _ List.mem_cons_self rfl

end Definition

end Tollgate
