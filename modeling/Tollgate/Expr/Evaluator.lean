import Tollgate.Ascending
import Tollgate.Expr.Eval
import Tollgate.Expr.Scan

/-!
# The evaluator

An evaluator remembers the outcome of parsing each distinct trimmed text,
failures included.  Every entry is what parsing that text gives, so remembering
never changes an answer.
-/

namespace Tollgate

open Tollgate.Expr

structure Evaluator where
  compiled : List (String × Except ParseError Tree) := []
  sound : ∀ entry ∈ compiled, entry.2 = parse entry.1 := by simp

structure SyntaxReport where
  references : List String
  referencedSteps : List Nat
  error : Option ParseError

def SyntaxReport.valid (report : SyntaxReport) : Bool := report.error.isNone

namespace Evaluator

def empty : Evaluator := {}

instance : Inhabited Evaluator := ⟨empty⟩

def size (evaluator : Evaluator) : Nat := evaluator.compiled.length

/-- The tree of the trimmed text, parsed only when it is not remembered. -/
def compile (evaluator : Evaluator) (text : String) :
    Except ParseError Tree × Evaluator :=
  let key := Text.trim text
  match evaluator.compiled.lookup key with
  | some outcome => (outcome, evaluator)
  | none =>
      (parse key,
        { compiled := (key, parse key) :: evaluator.compiled
          sound := by
            intro entry h
            rcases List.mem_cons.mp h with rfl | h
            · rfl
            · exact evaluator.sound entry h })

theorem lookup_compiled {evaluator : Evaluator} {key : String}
    {outcome : Except ParseError Tree} (h : evaluator.compiled.lookup key = some outcome) :
    outcome = parse key := by
  have : ∀ entries : List (String × Except ParseError Tree),
      (∀ entry ∈ entries, entry.2 = parse entry.1) →
      entries.lookup key = some outcome → outcome = parse key := by
    intro entries sound found
    induction entries with
    | nil => simp at found
    | cons entry rest ih =>
        rw [List.lookup_cons] at found
        split at found
        · next same =>
            have := sound entry (by simp)
            rw [Option.some.injEq] at found
            rw [← found, this, beq_iff_eq.mp same]
        · exact ih (fun e he => sound e (by simp [he])) found
  exact this evaluator.compiled evaluator.sound h

@[simp] theorem compile_fst (evaluator : Evaluator) (text : String) :
    (evaluator.compile text).1 = parse (Text.trim text) := by
  unfold compile
  dsimp only
  split
  · next h => exact lookup_compiled h
  · rfl

def evaluate (evaluator : Evaluator) (scope : Scope) (text : String) :
    Except EvalError Json × Evaluator :=
  if Text.isBlank text then (.ok (.bool true), evaluator)
  else
    let (outcome, evaluator) := evaluator.compile text
    match outcome with
    | .ok tree => (tree.eval scope, evaluator)
    | .error error => (.error (.parse error), evaluator)

@[simp] theorem evaluate_fst (evaluator : Evaluator) (scope : Scope) (text : String) :
    (evaluator.evaluate scope text).1 = Expr.evaluate scope text := by
  unfold evaluate Expr.evaluate
  split
  · rfl
  · rw [← compile_fst evaluator text]
    rcases evaluator.compile text with ⟨_ | _, _⟩ <;> rfl

def holds (evaluator : Evaluator) (scope : Scope) (text : String) :
    Except EvalError Bool × Evaluator :=
  let (outcome, evaluator) := evaluator.evaluate scope text
  (outcome.map Json.truthy, evaluator)

@[simp] theorem holds_fst (evaluator : Evaluator) (scope : Scope) (text : String) :
    (evaluator.holds scope text).1 = Expr.holds scope text := by
  simp [holds, Expr.holds]

def report (evaluator : Evaluator) (text : String) : SyntaxReport × Evaluator :=
  let references := Reference.scan text
  let referenced := Ascending.ofList
    ((references.filterMap Reference.parse?).filterMap Reference.step?)
  if Text.isBlank text then (⟨references, referenced, none⟩, evaluator)
  else
    let (outcome, evaluator) := evaluator.compile text
    match outcome with
    | .ok _ => (⟨references, referenced, none⟩, evaluator)
    | .error error => (⟨references, referenced, some error⟩, evaluator)

end Evaluator

end Tollgate
