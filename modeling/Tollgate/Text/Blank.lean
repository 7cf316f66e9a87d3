/-!
# Blank text

White space is the Unicode property `White_Space`: twenty-five code points.
Trimming removes it from both ends of a text, and a text that is nothing but
white space is blank.
-/

namespace Tollgate.Text

def isSpace (c : Char) : Bool :=
  let n := c.toNat
  (9 ≤ n && n ≤ 13) || n == 0x20 || n == 0x85 || n == 0xA0 || n == 0x1680 ||
    (0x2000 ≤ n && n ≤ 0x200A) || n == 0x2028 || n == 0x2029 || n == 0x202F ||
    n == 0x205F || n == 0x3000

def trimChars (chars : List Char) : List Char :=
  ((chars.dropWhile isSpace).reverse.dropWhile isSpace).reverse

def trim (text : String) : String :=
  String.ofList (trimChars text.toList)

def isBlank (text : String) : Bool :=
  text.toList.all isSpace

def isIdentifierChar (c : Char) : Bool :=
  c.isAlphanum || c == '_'

/-- A non-empty run of ASCII digits, of any length and with any leading zeros. -/
def digits? (chars : List Char) : Option Nat :=
  if chars.isEmpty || !chars.all Char.isDigit then none
  else some (chars.foldl (fun total c => total * 10 + (c.toNat - 48)) 0)

def numeral? (bound : Nat) (text : String) : Option Nat :=
  let chars := match text.toList with
    | '+' :: rest => rest
    | chars => chars
  (digits? chars).filter (· < bound)

end Tollgate.Text
