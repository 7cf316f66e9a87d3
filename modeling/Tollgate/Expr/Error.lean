import Tollgate.Text.Blank

/-!
# Errors of expressions

`ParseError` is raised while a text is cut into tokens or read as a tree, and
`EvalError` while a tree is evaluated.  `message` gives the words for each.
-/

namespace Tollgate.Expr

inductive Expected where
  | word
  | operand
  | colon
  | closing
  | finish
  deriving DecidableEq, Repr

def Expected.text : Expected → String
  | .word => "a literal, variable or operator"
  | .operand => "a literal, variable or '('"
  | .colon => "':' in conditional expression"
  | .closing => "')'"
  | .finish => "end of expression"

inductive ParseError where
  | unexpectedChar (char : Char) (position : Nat)
  | unterminatedString (start : Nat)
  | invalidNumber (text : String)
  | invalidReference (text : String)
  | unexpectedToken (found : String) (position : Nat) (expected : Expected)
  | unexpectedEnd (expected : Expected)
  deriving DecidableEq, Repr

def ParseError.message : ParseError → String
  | .unexpectedChar char position =>
      "unexpected character '" ++ String.ofList [char] ++ "' at position " ++ toString position
  | .unterminatedString start =>
      "unterminated string literal starting at position " ++ toString start
  | .invalidNumber text => "invalid number '" ++ text ++ "'"
  | .invalidReference text => "invalid variable reference '" ++ text ++ "'"
  | .unexpectedToken found position expected =>
      "unexpected token '" ++ found ++ "' at position " ++ toString position ++ ", expected " ++
        expected.text
  | .unexpectedEnd expected => "unexpected end of expression, expected " ++ expected.text

inductive EvalError where
  | parse (error : ParseError)
  | typeMismatch (op left right : String)
  | invalidNegation (kind : String)
  | divisionByZero
  | nonFinite
  deriving DecidableEq, Repr

def EvalError.message : EvalError → String
  | .parse error => error.message
  | .typeMismatch op left right =>
      "cannot apply '" ++ op ++ "' to " ++ left ++ " and " ++ right
  | .invalidNegation kind => "cannot negate " ++ kind
  | .divisionByZero => "division by zero"
  | .nonFinite => "arithmetic produced a non-finite number"

end Tollgate.Expr
