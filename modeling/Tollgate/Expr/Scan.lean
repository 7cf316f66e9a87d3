import Tollgate.Expr.Reference

/-!
# References inside text

`scan` lists the dollar tokens of an expression, quoted strings skipped, also
when the expression does not parse.  `Template.split` cuts a text into literal
runs and well-formed references; there quotes are ordinary characters.
-/

namespace Tollgate.Reference

/-- What follows the closing quote; a backslash hides the character after it. -/
def afterQuote (quote : Char) : List Char → List Char
  | [] => []
  | c :: rest =>
      if c = quote then rest
      else if c = '\\' then
        match rest with
        | [] => []
        | _ :: rest => afterQuote quote rest
      else afterQuote quote rest

private theorem length_afterQuote_le (quote : Char) (chars : List Char) :
    (afterQuote quote chars).length ≤ chars.length := by
  fun_induction afterQuote quote chars with
  | case1 => simp
  | case2 => simp
  | case3 => simp
  | case4 => simp only [List.length_cons]; omega
  | case5 => simp only [List.length_cons]; omega

/-- Every dollar token with at least one character after the sign, in order. -/
def tokens : List Char → List (List Char)
  | [] => []
  | c :: rest =>
      if c = '"' ∨ c = '\'' then tokens (afterQuote c rest)
      else if c = '$' then
        let size := extent rest
        if size = 0 then tokens rest
        else ('$' :: rest.take size) :: tokens (rest.drop size)
      else tokens rest
  termination_by chars => chars.length
  decreasing_by
    · have := length_afterQuote_le c rest
      simp only [List.length_cons]; omega
    all_goals simp only [List.length_drop, List.length_cons]; omega

def scan (text : String) : List String :=
  (tokens text.toList).eraseDups.map String.ofList

end Tollgate.Reference

namespace Tollgate

inductive Template.Segment where
  | text (content : String)
  | reference (raw : String) (target : Reference)
  deriving DecidableEq, Repr

namespace Template

def flush (literal : List Char) : List Segment :=
  if literal.isEmpty then [] else [.text (String.ofList literal.reverse)]

/-- Splits what is left, after a run of literal characters given last first. -/
def splitFrom (literal : List Char) : List Char → List Segment
  | [] => flush literal
  | c :: rest =>
      if c = '$' then
        let size := Reference.extent rest
        let token := '$' :: rest.take size
        match Reference.ofChars? token with
        | some target =>
            flush literal ++
              .reference (String.ofList token) target :: splitFrom [] (rest.drop size)
        | none => splitFrom (token.reverse ++ literal) (rest.drop size)
      else splitFrom (c :: literal) rest
  termination_by chars => chars.length
  decreasing_by all_goals simp only [List.length_drop, List.length_cons]; omega

def split (text : String) : List Segment := splitFrom [] text.toList

end Template

end Tollgate
