import Mathlib.Data.Finset.Card
import Tollgate.Expr.Evaluator

/-!
# Histories of the evaluator

Whatever an evaluator has been asked before, it answers a call as a new one
does.  It remembers each text that was to be parsed once, whether parsing
succeeded or failed, and nothing else.
-/

namespace Tollgate.Evaluator

open Tollgate.Expr

inductive Call where
  | compile (text : String)
  | report (text : String)
  | evaluate (scope : Scope) (text : String)
  | holds (scope : Scope) (text : String)

inductive Answer where
  | tree (outcome : Except ParseError Tree)
  | report (report : SyntaxReport)
  | value (outcome : Except EvalError Json)
  | verdict (outcome : Except EvalError Bool)

def perform (evaluator : Evaluator) : Call → Answer × Evaluator
  | .compile text => (evaluator.compile text).map .tree id
  | .report text => (evaluator.report text).map .report id
  | .evaluate scope text => (evaluator.evaluate scope text).map .value id
  | .holds scope text => (evaluator.holds scope text).map .verdict id

def after (calls : List Call) : Evaluator :=
  calls.foldl (fun evaluator call => (evaluator.perform call).2) empty

def answer (calls : List Call) (call : Call) : Answer := ((after calls).perform call).1

/-- The trimmed text that a call needs parsed.  A blank text is parsed only to be compiled. -/
def Call.parsed? : Call → Option String
  | .compile text => some (Text.trim text)
  | .report text | .evaluate _ text | .holds _ text =>
      if Text.isBlank text then none else some (Text.trim text)

def remembered (evaluator : Evaluator) : List String := evaluator.compiled.map Prod.fst

theorem after_concat (calls : List Call) (call : Call) :
    after (calls ++ [call]) = ((after calls).perform call).2 := by
  rw [after, List.foldl_append]
  rfl

private theorem report_fst (evaluator other : Evaluator) (text : String) :
    (evaluator.report text).1 = (other.report text).1 := by
  unfold report
  dsimp only
  split
  · rfl
  · have same := (evaluator.compile_fst text).trans (other.compile_fst text).symm
    revert same
    rcases evaluator.compile text with ⟨outcome, _⟩
    rcases other.compile text with ⟨_, _⟩
    rintro ⟨⟩
    cases outcome <;> rfl

theorem perform_fst (evaluator other : Evaluator) (call : Call) :
    (evaluator.perform call).1 = (other.perform call).1 := by
  cases call with
  | compile text =>
      exact congrArg Answer.tree ((evaluator.compile_fst text).trans (other.compile_fst text).symm)
  | report text => exact congrArg Answer.report (evaluator.report_fst other text)
  | evaluate scope text =>
      exact congrArg Answer.value
        ((evaluator.evaluate_fst scope text).trans (other.evaluate_fst scope text).symm)
  | holds scope text =>
      exact congrArg Answer.verdict
        ((evaluator.holds_fst scope text).trans (other.holds_fst scope text).symm)

private theorem lookup_eq_none_iff {evaluator : Evaluator} {key : String} :
    evaluator.compiled.lookup key = none ↔ key ∉ evaluator.remembered := by
  rw [List.lookup_eq_none_iff, remembered, List.mem_map, not_exists]
  refine forall_congr' fun entry => ?_
  rw [not_and, bne_iff_ne, ne_comm]

theorem remembered_compile (evaluator : Evaluator) (text : String) :
    (evaluator.compile text).2.remembered = evaluator.remembered.insert (Text.trim text) := by
  unfold compile
  dsimp only
  split
  · next found =>
      have known : Text.trim text ∈ evaluator.remembered := by
        by_contra unknown
        rw [lookup_eq_none_iff.mpr unknown] at found
        cases found
      exact (List.insert_of_mem known).symm
  · next missing => exact (List.insert_of_not_mem (lookup_eq_none_iff.mp missing)).symm

private theorem remembered_evaluate (evaluator : Evaluator) (scope : Scope) (text : String) :
    (evaluator.evaluate scope text).2.remembered =
      if Text.isBlank text then evaluator.remembered
      else evaluator.remembered.insert (Text.trim text) := by
  unfold evaluate
  split
  · rfl
  · rw [← evaluator.remembered_compile text]
    rcases evaluator.compile text with ⟨_ | _, _⟩ <;> rfl

private theorem remembered_report (evaluator : Evaluator) (text : String) :
    (evaluator.report text).2.remembered =
      if Text.isBlank text then evaluator.remembered
      else evaluator.remembered.insert (Text.trim text) := by
  unfold report
  dsimp only
  split
  · rfl
  · rw [← evaluator.remembered_compile text]
    rcases evaluator.compile text with ⟨_ | _, _⟩ <;> rfl

private theorem remembered_perform (evaluator : Evaluator) (call : Call) :
    (evaluator.perform call).2.remembered =
      (call.parsed?.map evaluator.remembered.insert).getD evaluator.remembered := by
  have conditional (text : String) :
      (if Text.isBlank text then evaluator.remembered
        else evaluator.remembered.insert (Text.trim text)) =
      ((if Text.isBlank text then none else some (Text.trim text)).map
        evaluator.remembered.insert).getD evaluator.remembered := by
    split <;> rfl
  cases call with
  | compile text => exact evaluator.remembered_compile text
  | report text => exact (evaluator.remembered_report text).trans (conditional text)
  | evaluate scope text => exact (evaluator.remembered_evaluate scope text).trans (conditional text)
  | holds scope text => exact (evaluator.remembered_evaluate scope text).trans (conditional text)

private theorem remembered_after (calls : List Call) :
    (after calls).remembered = (calls.filterMap Call.parsed?).reverse.dedup := by
  induction calls using List.reverseRecOn with
  | nil => rfl
  | append_singleton calls call ih =>
      rw [after_concat, remembered_perform, ih, List.filterMap_append, List.reverse_append,
        List.filterMap_cons, List.filterMap_nil]
      cases call.parsed? with
      | none => rfl
      | some key =>
          rw [List.reverse_singleton, List.singleton_append, List.dedup_cons]
          simp [List.insert, List.mem_dedup]

/-- In any history every call is answered as by a new evaluator, failures included, and the
entries are one for each distinct trimmed text that was to be parsed. -/
theorem answers_afresh (calls : List Call) (call : Call) :
    answer calls call = answer [] call ∧
      (after calls).remembered = (calls.filterMap Call.parsed?).reverse.dedup ∧
      (after calls).size = (calls.filterMap Call.parsed?).toFinset.card := by
  have entries : (after calls).size = (after calls).remembered.length := by
    rw [remembered, List.length_map]
    rfl
  refine ⟨perform_fst _ _ call, remembered_after calls, ?_⟩
  rw [entries, remembered_after, List.card_toFinset, (List.reverse_perm _).dedup.length_eq]

end Tollgate.Evaluator
