/-!
# Lines and columns

Texts are cut into lines at line feeds and filled up to columns with blanks.
-/

namespace Tollgate.Text

/-- The lines of a text; a carriage return before the end of a line is not part of it. -/
def splitLines : List Char → List (List Char)
  | [] => []
  | '\n' :: rest => [] :: splitLines rest
  | ['\r'] => [['\r']]
  | '\r' :: '\n' :: rest => [] :: splitLines rest
  | c :: rest =>
      match splitLines rest with
      | [] => [[c]]
      | line :: others => (c :: line) :: others

def lines (text : String) : List String := (splitLines text.toList).map String.ofList

def unlines (lines : List String) : String := String.join (lines.map fun line => line ++ "\n")

def spaces (n : Nat) : String := String.ofList (List.replicate n ' ')

def padEnd (width : Nat) (text : String) : String := text ++ spaces (width - text.length)

def padStart (width : Nat) (text : String) : String := spaces (width - text.length) ++ text

end Tollgate.Text
