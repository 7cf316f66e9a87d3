import Tollgate.Expr.Eval
import Tollgate.Risk.Rule

/-!
# Rule messages

A message is cut once, from left to right, into text and placeholders in
braces.  Known placeholders are replaced, and everything else is copied as it
stands, so replacements are never looked at again.
-/

namespace Tollgate.Message

inductive Piece where
  | text (chars : List Char)
  | placeholder (body : List Char)
  | unclosed (chars : List Char)
  deriving DecidableEq, Repr

def closing? : List Char → Option (List Char × List Char)
  | [] => none
  | c :: rest =>
      if c = '}' then some ([], rest)
      else (closing? rest).map fun (body, after) => (c :: body, after)

theorem length_lt_of_closing? {chars body after : List Char}
    (h : closing? chars = some (body, after)) : after.length < chars.length := by
  induction chars generalizing body with
  | nil => simp [closing?] at h
  | cons c rest ih =>
      unfold closing? at h
      split at h
      · simp_all
      · obtain ⟨⟨b, a⟩, found, same⟩ := Option.map_eq_some_iff.mp h
        have := ih (show closing? rest = some (b, after) by simp_all)
        simp only [List.length_cons]; omega

def pieces : List Char → List Piece
  | [] => []
  | c :: rest =>
      if c = '{' then
        match h : closing? rest with
        | some (body, after) =>
            have := length_lt_of_closing? h
            .placeholder body :: pieces after
        | none => [.unclosed rest]
      else
        match pieces rest with
        | .text chars :: others => .text (c :: chars) :: others
        | others => .text [c] :: others
  termination_by chars => chars.length

def stepText : Phase → String
  | .step n => toString n
  | phase => phase.text

/-- A value in a message; what is absent is written `null`. -/
def valueText : Option Json → String
  | none | some .null => "null"
  | some value => value.display

/-- What a placeholder with this key stands for, if it is known. -/
def replacement? (rule : Rule) (phase : Phase) (scope : Scope) (key : String) : Option String :=
  if key = "rule_id" then some rule.id
  else if key = "step" then some (stepText phase)
  else (Reference.parse? key).map fun target => valueText (scope target)

def Piece.render (rule : Rule) (phase : Phase) (scope : Scope) : Piece → String
  | .text chars => String.ofList chars
  | .placeholder body =>
      (replacement? rule phase scope (String.ofList (Text.trimChars body))).getD
        (String.ofList ('{' :: body ++ ['}']))
  | .unclosed chars => String.ofList ('{' :: chars)

end Message

def Rule.render (rule : Rule) (phase : Phase) (scope : Scope) : String :=
  if Text.isBlank rule.message then s!"Rule {rule.id} triggered ({rule.action.text})"
  else
    String.join ((Message.pieces rule.message.toList).map (Message.Piece.render rule phase scope))

end Tollgate
