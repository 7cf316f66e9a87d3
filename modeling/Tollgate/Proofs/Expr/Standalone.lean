import Tollgate.Proofs.Expr.Layout
import Tollgate.Proofs.Expr.Splitting

/-!
# References that stand alone

A reference is read back from its text.  A text that is read as a reference is
spelled like it and, where nothing else stands beside it, is one token as an
expression and one segment as a template.
-/

namespace Tollgate.Reference

variable {raw : String} {target : Reference}

private theorem tokenize_of_parse? (read : parse? raw = some target) :
    Expr.tokenize raw = .ok [⟨.variable target, 0⟩, ⟨.eof, raw.length⟩] := by
  obtain ⟨body, _, _, chars, -⟩ := exists_segments read
  have known : ofChars? ('$' :: body) = some target := chars ▸ read
  have word : Expr.readToken 0 '$' (body ++ []) = .ok (.variable target, body.length) :=
    Expr.readToken_reference known rfl
  have laid : Expr.LaidOut 0 ([] ++ '$' :: (body ++ []))
      [⟨.variable target, 0⟩, ⟨.eof, 0 + 1 + body.length⟩] :=
    .word (List.forall_mem_nil _) (by decide) word (.finish (List.forall_mem_nil _))
  have length : raw.length = 0 + 1 + body.length := by
    rw [← String.length_toList, chars, List.length_cons]
    omega
  rw [List.nil_append, List.append_nil, ← chars, ← length] at laid
  exact Expr.tokenize_eq_ok_iff.mpr laid

private theorem split_of_parse? (read : parse? raw = some target) :
    Template.split raw = [.reference raw target] := by
  obtain ⟨body, _, _, chars, -⟩ := exists_segments read
  have known : ofChars? ('$' :: body) = some target := chars ▸ read
  have cut := Template.Cuts.reference known (extent_of_ofChars? known rfl) .nil
  rw [List.append_nil, ← chars, String.ofList_toList] at cut
  exact Template.split_eq_iff.mpr cut

/-- A text that stands for a reference wherever it is read. -/
structure StandsFor (raw : String) (target : Reference) : Prop where
  proper : target.IsProper
  spelled : ∃ zeros, raw = target.spelling zeros
  unchanged : target.step? = none → target.text = raw
  token : Expr.tokenize raw = .ok [⟨.variable target, 0⟩, ⟨.eof, raw.length⟩]
  segment : Template.split raw = [.reference raw target]

/-- Every reference that can be written is read back from its text, and a text that is read as
a reference is that text up to zeros, one token and one segment. -/
theorem text_round_trips :
    (∀ target : Reference, target.IsProper → parse? target.text = some target) ∧
      ∀ (raw : String) (target : Reference), parse? raw = some target ↔ StandsFor raw target := by
  refine ⟨fun target proper => ?_, fun raw target => ⟨fun read => ?_, fun stands => ?_⟩⟩
  · exact parse?_eq_some_iff.mpr ⟨proper, 0, target.spelling_zero.symm⟩
  · obtain ⟨proper, spelled⟩ := parse?_eq_some_iff.mp read
    refine ⟨proper, spelled, fun no_step => ?_, tokenize_of_parse? read, split_of_parse? read⟩
    obtain ⟨zeros, rfl⟩ := spelled
    exact (spelling_of_step? no_step zeros).symm
  · exact parse?_eq_some_iff.mpr ⟨stands.proper, stands.spelled⟩

def zeroed : String := "$step004294967295.scores.0"

theorem text_round_trips_zeroed :
    let target : Reference := ⟨.step 4294967295, ["scores", "0"]⟩
    target.IsProper ∧ parse? target.text = some target ∧ parse? zeroed = some target ∧
      zeroed ≠ target.text ∧ StandsFor zeroed target := by
  intro target
  have small : 4294967295 < Bound.word := by decide
  have path : ∀ segment ∈ target.path, isSegment segment.toList = true := by decide +kernel
  have proper : target.IsProper :=
    ⟨small, fun segment inside => isSegment_iff.mp (path segment inside)⟩
  have read : parse? zeroed = some target := by decide +kernel
  have differs : zeroed ≠ target.text := by decide +kernel
  exact ⟨proper, text_round_trips.1 target proper, read, differs,
    (text_round_trips.2 zeroed target).mp read⟩

end Tollgate.Reference
