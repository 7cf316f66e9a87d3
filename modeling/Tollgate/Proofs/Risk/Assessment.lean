import Tollgate.Proofs.Number.Score
import Tollgate.Proofs.Run.Stage

/-!
# Assessments of runs

The six scores of an assessment and their weighted total are from zero to one
for every input and for all results.  They count results and outputs, so they
do not depend on the order of the results, and a final output that a step has
produced is counted already.  Lists are taken to be no longer than a word of
sixty-four bits can count.
-/

namespace Tollgate

namespace Json

private theorem Number.same_self (n : Number) : n.same n = true := by
  cases n with
  | integer n _ => exact beq_self_eq_true n
  | float x finite => exact (Tollgate.Number.beq_iff_value finite finite).mpr rfl

mutual

theorem same_self : (value : Json) → same value value = true
  | .null => rfl
  | .bool b => beq_self_eq_true b
  | .number n => n.same_self
  | .string s => beq_self_eq_true s
  | .array items => sameItems_self items
  | .object fields => sameFields_self fields

theorem sameItems_self : (items : List Json) → sameItems items items = true
  | [] => rfl
  | value :: rest => Bool.and_eq_true_iff.mpr ⟨same_self value, sameItems_self rest⟩

theorem sameFields_self : (fields : List (String × Json)) → sameFields fields fields = true
  | [] => rfl
  | (key, value) :: rest =>
      Bool.and_eq_true_iff.mpr
        ⟨Bool.and_eq_true_iff.mpr ⟨beq_self_eq_true key, same_self value⟩, sameFields_self rest⟩

end

end Json

namespace Assessment

open Number

theorem isScore_clamp {x : Float} (number : x.isNaN = false) : IsScore (clamp x) := by
  unfold clamp
  split
  · exact isScore_zero
  · next not_below =>
      split
      · exact isScore_one
      · next not_above =>
          constructor <;> by_contra beyond
          · exact not_below (Number.lt_of_not_le number rfl beyond)
          · exact not_above (Number.lt_of_not_le rfl number beyond)

theorem isScore_profileScore (input : Json) (name : String) :
    IsScore (profileScore input name) := by
  unfold profileScore
  dsimp only
  cases found : (((input.get? "risk_profile").bind (Json.get? name)).bind Json.float?).filter
      fun x => x.isFinite with
  | none => exact isScore_zero
  | some x =>
      obtain ⟨-, finite⟩ := Option.filter_eq_some_iff.mp found
      exact isScore_clamp (isNaN_of_isFinite finite)

/-- A part of a whole; of nothing it is zero, and nothing is divided. -/
structure IsShare (part whole : Nat) (score : Float) : Prop where
  le : part ≤ whole
  empty : whole = 0 → score = 0.0
  quotient : whole ≠ 0 →
    (Float.ofNat whole == 0.0) = false ∧ score = Float.ofNat part / Float.ofNat whole

theorem isShare_share {part whole : Nat} (le : part ≤ whole) (fits : whole < 2 ^ 65) :
    IsShare part whole (share part whole) := by
  refine ⟨le, fun none => if_pos none, fun some => ⟨?_, if_neg some⟩⟩
  have finite := (Json.Number.isNearest_ofNat fits).isFinite
  rw [← Bool.not_eq_true, beq_iff_value finite rfl]
  exact fun zero => some ((Json.Number.value_ofNat_eq_zero_iff fits).mp zero)

theorem isScore_share {part whole : Nat} (le : part ≤ whole) (fits : whole < 2 ^ 65) :
    IsScore (share part whole) := by
  unfold share
  split
  · exact isScore_zero
  · next nonempty =>
      have nearest := Json.Number.isNearest_ofNat fits
      have nearest_part := Json.Number.isNearest_ofNat (le.trans_lt fits)
      have nonneg (n : Nat) : value 0.0 ≤ n := n.cast_nonneg
      refine isScore_div nearest_part.isFinite nearest.isFinite
        (nearest_part.le_value rfl (nonneg part)) ?_ ?_
      · rcases le.eq_or_lt with rfl | lt
        · exact le_rfl
        · exact nearest_part.mono nearest (by exact_mod_cast lt)
      · refine lt_of_le_of_ne (nearest.le_value rfl (nonneg whole)) fun zero => nonempty ?_
        exact (Json.Number.value_ofNat_eq_zero_iff fits).mp zero.symm

theorem isAmount_weightedSum {scores : List Float} (h : ∀ score ∈ scores, IsScore score) :
    IsAmount (weightedSum scores) := by
  have weights_amount : ∀ weight ∈ weights, weight.isFinite = true ∧ 0.0 ≤ weight := by decide
  rw [weightedSum, ← List.map_uncurry_zip_eq_zipWith, List.foldl_map]
  refine isAmount_foldl_add _ (fun pair member => ?_) isAmount_zero
  have member := List.of_mem_zip member
  obtain ⟨finite, nonneg⟩ := weights_amount pair.2 member.2
  have score := h pair.1 member.1
  exact score.isAmount.mul (isAmount_zero.of_le nonneg) score.isFinite finite

theorem countP_isTroubled_le (results : List StepResult) :
    results.countP isTroubled ≤ results.countP isExecuted := by
  refine List.countP_mono_left fun result _ troubled => ?_
  unfold isTroubled at troubled
  unfold isExecuted
  cases ended : result.status <;> rw [ended] at troubled
  case skipped => cases troubled
  all_goals rfl

private theorem length_outputs_le (results : List StepResult) (finalOutput : Option Json) :
    (outputs results finalOutput).length ≤ results.length + 1 := by
  unfold outputs
  rw [List.length_append]
  refine Nat.add_le_add (List.length_filterMap_le _ _) ?_
  exact Option.length_toList_le

structure IsBounded (assessment : Assessment) : Prop where
  technical : IsScore assessment.technical
  safety : IsScore assessment.safety
  financial : IsScore assessment.financial
  compliance : IsScore assessment.compliance
  execution : IsScore assessment.execution
  anomaly : IsScore assessment.anomaly
  weightedTotal : IsScore assessment.weightedTotal

section

variable (input : Json) {results : List StepResult} (fits : results.length < Bound.longWord)
  (finalOutput : Option Json)

include fits

theorem countP_isExecuted_lt : results.countP isExecuted < 2 ^ 65 :=
  (List.countP_le_length.trans_lt fits).trans (by decide)

theorem length_outputs_lt : (outputs results finalOutput).length < 2 ^ 65 :=
  (length_outputs_le results finalOutput).trans_lt
    ((Nat.add_lt_add_right fits 1).trans (by decide))

theorem isBounded_weigh : (weigh input results finalOutput).IsBounded := by
  have execution := isScore_share (countP_isTroubled_le results) (countP_isExecuted_lt fits)
  have anomaly := isScore_share (List.countP_le_length (p := isAnomalous))
    (length_outputs_lt fits finalOutput)
  refine ⟨isScore_profileScore input "technical", isScore_profileScore input "safety",
    isScore_profileScore input "financial", isScore_profileScore input "compliance",
    execution, anomaly, isScore_clamp (isAmount_weightedSum ?_).isNaN⟩
  simp only [List.forall_mem_cons, List.not_mem_nil, false_implies, implies_true, and_true]
  exact ⟨isScore_profileScore input _, isScore_profileScore input _,
    isScore_profileScore input _, isScore_profileScore input _, execution, anomaly⟩

end

theorem weigh_congr (input : Json) {results others : List StepResult}
    {finalOutput otherOutput : Option Json}
    (troubled : results.countP isTroubled = others.countP isTroubled)
    (executed : results.countP isExecuted = others.countP isExecuted)
    (produced : (outputs results finalOutput).Perm (outputs others otherOutput)) :
    weigh input results finalOutput = weigh input others otherOutput := by
  have anomalous := produced.countP_eq isAnomalous
  unfold weigh
  dsimp only
  rw [troubled, executed, anomalous, produced.length_eq]

private theorem perm_outputs {results others : List StepResult} (perm : results.Perm others)
    (finalOutput : Option Json) :
    (outputs results finalOutput).Perm (outputs others finalOutput) := by
  have produced := perm.filterMap StepResult.output
  have counted (output : Json) :
      (results.filterMap StepResult.output).any (fun other => other == output) =
        (others.filterMap StepResult.output).any (fun other => other == output) := by
    rw [Bool.eq_iff_iff, List.any_eq_true, List.any_eq_true]
    simp only [produced.mem_iff]
  unfold outputs
  simp only [counted]
  exact produced.append_right _

theorem weigh_perm (input : Json) {results others : List StepResult} (perm : results.Perm others)
    (finalOutput : Option Json) :
    weigh input results finalOutput = weigh input others finalOutput :=
  weigh_congr input (perm.countP_eq isTroubled) (perm.countP_eq isExecuted)
    (perm_outputs perm finalOutput)

private theorem outputs_of_produced {results : List StepResult} {result : StepResult} {value : Json}
    (member : result ∈ results) (produced : result.output = some value) :
    outputs results (some value) = outputs results none := by
  have counted : (results.filterMap StepResult.output).any (fun other => other == value) = true :=
    List.any_eq_true.mpr
      ⟨value, List.mem_filterMap.mpr ⟨result, member, produced⟩, Json.same_self value⟩
  simp only [outputs, Option.filter_some, counted, Bool.not_true, Bool.false_eq_true, if_false,
    Option.filter_none]

theorem weigh_of_produced (input : Json) {results : List StepResult} {result : StepResult}
    {value : Json} (member : result ∈ results) (produced : result.output = some value) :
    weigh input results (some value) = weigh input results none :=
  weigh_congr input rfl rfl (.of_eq (outputs_of_produced member produced))

private theorem weigh_finalOutput? (input : Json) (execution : Execution) :
    weigh input execution.results execution.finalOutput? =
      weigh input execution.results none := by
  cases last : execution.finalOutput? with
  | none => rfl
  | some value =>
      obtain ⟨result, member, produced⟩ := List.exists_of_findSome?_eq_some last
      exact weigh_of_produced input (List.mem_reverse.mp member) produced

/-- What a weighted assessment of the results comes to, and what it does not go by. -/
structure IsSettledBy (input : Json) (results : List StepResult) : Prop where
  bounded : ∀ finalOutput, (weigh input results finalOutput).IsBounded
  execution : ∀ finalOutput, IsShare (results.countP isTroubled) (results.countP isExecuted)
    (weigh input results finalOutput).execution
  anomaly : ∀ finalOutput, IsShare ((outputs results finalOutput).countP isAnomalous)
    (outputs results finalOutput).length (weigh input results finalOutput).anomaly
  reordered : ∀ others finalOutput, results.Perm others →
    weigh input results finalOutput = weigh input others finalOutput
  counted : ∀ value, (∃ result ∈ results, result.output = some value) →
    weigh input results (some value) = weigh input results none
  /-- The last decision point takes the same total as its floor for every order. -/
  floor : ∀ {σ τ : Type} (env : Environment σ τ) (run : Run σ τ), env.assessor = weigh →
    run.context.input = input → results.Perm run.execution.results →
    run.assessmentAt env .final = weigh input results none ∧
      run.riskAt env .final = Run.riskAfter run.execution.cumulativeRisk
        (run.verdictAt env .final) (some (weigh input results none).weightedTotal)

theorem weigh_isSettledBy (input : Json) {results : List StepResult}
    (fits : results.length < Bound.longWord) : IsSettledBy input results where
  bounded := isBounded_weigh input fits
  execution _ := isShare_share (countP_isTroubled_le results) (countP_isExecuted_lt fits)
  anomaly finalOutput := isShare_share List.countP_le_length (length_outputs_lt fits finalOutput)
  reordered _ finalOutput perm := weigh_perm input perm finalOutput
  counted value produced := by
    obtain ⟨result, member, output⟩ := produced
    exact weigh_of_produced input member output
  floor env run weighs same_input perm := by
    have assessed : run.assessmentAt env .final = weigh input results none := by
      unfold Run.assessmentAt Run.assess
      rw [if_pos rfl, weighs, same_input, weigh_finalOutput?, ← weigh_perm input perm]
    refine ⟨assessed, ?_⟩
    unfold Run.riskAt
    rw [if_pos rfl, assessed]

def ended (number : Nat) (status : StepStatus) (output : Option Json) : StepResult where
  number := number
  name := ""
  target := "math.add"
  status := status
  output := output
  startedAt := .ofMillis 0
  finishedAt := .ofMillis 0

def mixedResults : List StepResult :=
  [ended 1 .completed (some (.object [("result", Json.ofNat 2)])),
    ended 2 .completedWithFallback (some .null), ended 3 .skipped none]

def profiledInput : Json :=
  .object [("risk_profile", .object [("technical", .number (.float 0.25 rfl)),
    ("safety", Json.ofNat 2), ("financial", .string "high")])]

theorem weigh_isSettledBy_mixed :
    mixedResults.length < Bound.longWord ∧ IsSettledBy profiledInput mixedResults ∧
      let assessment := weigh profiledInput mixedResults (some .null)
      assessment = weigh profiledInput mixedResults.reverse none ∧
        assessment.technical = 0.25 ∧ assessment.safety = 1.0 ∧ assessment.financial = 0.0 ∧
        assessment.execution = 0.5 ∧ assessment.anomaly = 0.5 := by
  have fits : mixedResults.length < Bound.longWord := by decide
  have settled := weigh_isSettledBy profiledInput fits
  have counted := settled.counted .null ⟨ended 2 .completedWithFallback (some .null),
    by simp [mixedResults], rfl⟩
  have reordered := settled.reordered mixedResults.reverse none mixedResults.reverse_perm.symm
  have half : Float.ofNat 1 / Float.ofNat 2 = 0.5 := by decide +kernel
  have executed : mixedResults.countP isExecuted = 2 := by decide
  have troubled : mixedResults.countP isTroubled = 1 := by decide
  have execution := (settled.execution (some .null)).quotient (by rw [executed]; decide)
  rw [troubled, executed, half] at execution
  have scores : profileScore profiledInput "technical" = 0.25 ∧
      profileScore profiledInput "safety" = 1.0 ∧
      profileScore profiledInput "financial" = 0.0 := by decide +kernel
  have anomaly : (weigh profiledInput mixedResults (some .null)).anomaly = 0.5 := by
    decide +kernel
  exact ⟨fits, settled, counted.trans reordered, scores.1, scores.2.1, scores.2.2, execution.2,
    anomaly⟩

end Assessment

end Tollgate
