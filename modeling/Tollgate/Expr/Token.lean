import Tollgate.Decimal.Layout
import Tollgate.Decimal.Reading
import Tollgate.Expr.Error
import Tollgate.Expr.Reference

/-!
# Tokens

`tokenize` cuts a text into tokens, each with the position of its first
character, and ends the list with an `eof` token.  White space between tokens
is skipped; keywords may be written in any case.
-/

namespace Tollgate.Expr

inductive Operator where
  | add | sub | mul | div
  | gt | lt | ge | le | eq | ne
  deriving DecidableEq, Repr

def Operator.text : Operator → String
  | .add => "+"
  | .sub => "-"
  | .mul => "*"
  | .div => "/"
  | .gt => ">"
  | .lt => "<"
  | .ge => ">="
  | .le => "<="
  | .eq => "=="
  | .ne => "!="

inductive TokenKind where
  | number (value : Float)
  | string (value : String)
  | bool (value : Bool)
  | null
  | variable (target : Reference)
  | and
  | or
  | not
  | operator (op : Operator)
  | question
  | colon
  | opening
  | closing
  | eof
  deriving DecidableEq

structure Token where
  kind : TokenKind
  position : Nat
  deriving DecidableEq

def TokenKind.text : TokenKind → String
  | .number value => Decimal.message.write value
  | .string value => "'" ++ value ++ "'"
  | .bool value => if value then "true" else "false"
  | .null => "null"
  | .variable target => target.text
  | .and => "AND"
  | .or => "OR"
  | .not => "NOT"
  | .operator op => op.text
  | .question => "?"
  | .colon => ":"
  | .opening => "("
  | .closing => ")"
  | .eof => "end of expression"

/-- Characters up to the closing quote; a backslash stands for what follows it. -/
def stringBody (quote : Char) : List Char → Option (List Char × Nat)
  | [] => none
  | c :: rest =>
      if c = quote then some ([], 1)
      else if c = '\\' then
        match rest with
        | [] => none
        | e :: rest =>
            let e := if e = 'n' then '\n' else if e = 't' then '\t' else e
            (stringBody quote rest).map fun (text, size) => (e :: text, size + 2)
      else (stringBody quote rest).map fun (text, size) => (c :: text, size + 1)

/-- Digits with at most one point, which counts only when a digit follows. -/
def numberExtent (pointSeen : Bool) : List Char → Nat
  | '.' :: c :: rest =>
      if !pointSeen && c.isDigit then numberExtent true (c :: rest) + 1 else 0
  | c :: rest => if c.isDigit then numberExtent pointSeen rest + 1 else 0
  | [] => 0

def keyword? (word : String) : Option TokenKind :=
  match word.toLower with
  | "and" => some .and
  | "or" => some .or
  | "not" => some .not
  | "true" => some (.bool true)
  | "false" => some (.bool false)
  | "null" => some .null
  | "none" => some .null
  | _ => none

def followedBy (next : Char) (rest : List Char) : Bool := rest.head? == some next

def startsNumber (c : Char) (rest : List Char) : Bool :=
  c.isDigit || (c == '.' && rest.head?.any Char.isDigit)

def readToken (position : Nat) (c : Char) (rest : List Char) :
    Except ParseError (TokenKind × Nat) :=
  let withEquals (one two : TokenKind) : Except ParseError (TokenKind × Nat) :=
    .ok (if followedBy '=' rest then (two, 1) else (one, 0))
  if c = '(' then .ok (.opening, 0)
  else if c = ')' then .ok (.closing, 0)
  else if c = '+' then .ok (.operator .add, 0)
  else if c = '-' then .ok (.operator .sub, 0)
  else if c = '*' then .ok (.operator .mul, 0)
  else if c = '/' then .ok (.operator .div, 0)
  else if c = '?' then .ok (.question, 0)
  else if c = ':' then .ok (.colon, 0)
  else if c = '>' then withEquals (.operator .gt) (.operator .ge)
  else if c = '<' then withEquals (.operator .lt) (.operator .le)
  else if c = '!' then withEquals .not (.operator .ne)
  else if c = '=' && followedBy '=' rest then .ok (.operator .eq, 1)
  else if c = '&' && followedBy '&' rest then .ok (.and, 1)
  else if c = '|' && followedBy '|' rest then .ok (.or, 1)
  else if c = '"' || c = '\'' then
    match stringBody c rest with
    | some (text, size) => .ok (.string (String.ofList text), size)
    | none => .error (.unterminatedString position)
  else if c = '$' then
    let size := Reference.extent rest
    match Reference.ofChars? ('$' :: rest.take size) with
    | some target => .ok (.variable target, size)
    | none => .error (.invalidReference (String.ofList ('$' :: rest.take size)))
  else if startsNumber c rest then
    let size := numberExtent (c == '.') rest
    let text := String.ofList (c :: rest.take size)
    match Decimal.float? text with
    | some value => .ok (.number value, size)
    | none => .error (.invalidNumber text)
  else if c.isAlpha || c = '_' then
    let tail := rest.takeWhile Text.isIdentifierChar
    let word := String.ofList (c :: tail)
    match keyword? word with
    | some kind => .ok (kind, tail.length)
    | none => .error (.unexpectedToken word position .word)
  else .error (.unexpectedChar c position)

def tokenizeFrom (position : Nat) : List Char → Except ParseError (List Token)
  | [] => .ok [⟨.eof, position⟩]
  | c :: rest =>
      if Text.isSpace c then tokenizeFrom (position + 1) rest
      else
        match readToken position c rest with
        | .error error => .error error
        | .ok (kind, size) =>
            match tokenizeFrom (position + 1 + size) (rest.drop size) with
            | .error error => .error error
            | .ok tokens => .ok (⟨kind, position⟩ :: tokens)
  termination_by chars => chars.length
  decreasing_by all_goals simp only [List.length_drop, List.length_cons]; omega

def tokenize (text : String) : Except ParseError (List Token) :=
  tokenizeFrom 0 text.toList

end Tollgate.Expr
