import Tollgate.Yaml.Cursor

/-!
# Scalars

The text of plain, quoted and block scalars.  Within a scalar of several lines
a single line break is folded into a space.
-/

namespace Tollgate.Yaml

/-- A text in the making, last character first, with the white space that may follow it. -/
structure Folding where
  text : List Char := []
  blanks : List Char := []
  leading : List Char := []
  trailing : List Char := []
  broken : Bool := false

namespace Folding

/-- Takes the white space into the text: folded if it holds a line break. -/
def flush (folding : Folding) : Folding :=
  let text :=
    if folding.broken then
      if folding.leading == ['\n'] then
        if folding.trailing.isEmpty then ' ' :: folding.text
        else folding.trailing ++ folding.text
      else folding.trailing ++ folding.leading ++ folding.text
    else folding.blanks ++ folding.text
  { text }

def push (folding : Folding) (c : Char) : Folding :=
  let folding := folding.flush
  { folding with text := c :: folding.text }

def addBlank (folding : Folding) (c : Char) : Folding :=
  if folding.broken then folding else { folding with blanks := c :: folding.blanks }

def addBreak (folding : Folding) (c : Char) : Folding :=
  if folding.broken then { folding with trailing := breakChar c :: folding.trailing }
  else { folding with blanks := [], leading := [breakChar c], broken := true }

def result (folding : Folding) : String := String.ofList folding.text.reverse

/-- Takes in blanks and breaks; a tab may not stand in for indentation below `indent`. -/
def gap (indent : Option Int) : Nat → Folding → Cursor → Option (Folding × Cursor)
  | 0, folding, cursor => some (folding, cursor)
  | fuel + 1, folding, cursor =>
      match cursor.peek with
      | none => some (folding, cursor)
      | some c =>
          if isBlank c then
            if folding.broken && c == '\t' &&
                indent.any (fun n : Int => decide ((cursor.column : Int) < n)) then none
            else gap indent fuel (folding.addBlank c) cursor.skip
          else if isBreak c then gap indent fuel (folding.addBreak c) cursor.skipBreak
          else some (folding, cursor)

end Folding

namespace Plain

def run (flow : Bool) : Nat → Folding → Cursor → Option (Folding × Cursor)
  | 0, folding, cursor => some (folding, cursor)
  | fuel + 1, folding, cursor =>
      match cursor.peek with
      | none => some (folding, cursor)
      | some c =>
          if isGap c then some (folding, cursor)
          else if flow && c == ':' &&
              (cursor.peekAt 1).any (fun d => isFlowIndicator d || d == '?') then none
          else if (c == ':' && cursor.gapAt 1) || (flow && isFlowIndicator c) then
            some (folding, cursor)
          else run flow fuel (folding.push c) cursor.skip

def readFrom (flow : Bool) (indent : Int) :
    Nat → Folding → Cursor → Option (Folding × Cursor)
  | 0, folding, cursor => some (folding, cursor)
  | fuel + 1, folding, cursor => do
      if cursor.atDocumentMark || cursor.is '#' then return (folding, cursor)
      let (folding, cursor) ← run flow (fuel + 1) folding cursor
      if !cursor.nextIs isGap then return (folding, cursor)
      let (folding, cursor) ← Folding.gap (some indent) (fuel + 1) folding cursor
      if !flow && decide ((cursor.column : Int) < indent) then return (folding, cursor)
      readFrom flow indent fuel folding cursor

def read (flow : Bool) (indent : Int) (cursor : Cursor) : Option (String × Bool × Cursor) := do
  let (folding, cursor) ← readFrom flow indent (cursor.rest.length + 1) {} cursor
  return (folding.result, folding.broken, cursor)

end Plain

namespace Quoted

def hexValue? (c : Char) : Option Nat :=
  if c.isDigit then some (c.toNat - '0'.toNat)
  else if 'a' ≤ c && c ≤ 'f' then some (c.toNat - 'a'.toNat + 10)
  else if 'A' ≤ c && c ≤ 'F' then some (c.toNat - 'A'.toNat + 10)
  else none

def hexNumber? (digits : List Char) : Option Nat :=
  digits.foldl
    (fun number digit => number.bind fun n => (hexValue? digit).map fun d => n * 16 + d) (some 0)

def charOf? (n : Nat) : Option Char :=
  if n.isValidChar then some (Char.ofNat n) else none

def simpleEscapes : List (Char × Char) :=
  [('0', '\x00'), ('a', '\x07'), ('b', '\x08'), ('t', '\t'), ('\t', '\t'), ('n', '\n'),
    ('v', '\x0b'), ('f', '\x0c'), ('r', '\r'), ('e', '\x1b'), (' ', ' '), ('"', '"'),
    ('/', '/'), ('\\', '\\'), ('N', '\u0085'), ('_', '\u00a0'), ('L', '\u2028'),
    ('P', '\u2029')]

def codeLength? (c : Char) : Option Nat := [('x', 2), ('u', 4), ('U', 8)].lookup c

def escape? (cursor : Cursor) : Option (Char × Cursor) := do
  let c ← cursor.peek
  match simpleEscapes.lookup c with
  | some meant => return (meant, cursor.skip)
  | none =>
      let length ← codeLength? c
      let digits := cursor.skip.rest.take length
      if digits.length < length then failure
      let n ← hexNumber? digits
      return (← charOf? n, cursor.skip.advance length)

def run (single : Bool) : Nat → Folding → Cursor → Option (Folding × Cursor)
  | 0, folding, cursor => some (folding, cursor)
  | fuel + 1, folding, cursor =>
      match cursor.peek with
      | none => some (folding, cursor)
      | some c =>
          if isGap c then some (folding, cursor)
          else if single && c == '\'' then
            if cursor.peekAt 1 == some '\'' then
              run single fuel (folding.push '\'') (cursor.advance 2)
            else some (folding, cursor)
          else if !single && c == '"' then some (folding, cursor)
          else if !single && c == '\\' then
            if (cursor.peekAt 1).any isBreak then
              some ({ folding.flush with broken := true }, cursor.skip.skipBreak)
            else
              match escape? cursor.skip with
              | some (meant, cursor) => run single fuel (folding.push meant) cursor
              | none => none
          else run single fuel (folding.push c) cursor.skip

def readFrom (single : Bool) : Nat → Folding → Cursor → Option (Folding × Cursor)
  | 0, _, _ => none
  | fuel + 1, folding, cursor => do
      if cursor.atDocumentMark || cursor.atEnd then failure
      let (folding, cursor) ← run single (fuel + 1) folding cursor
      if cursor.is (if single then '\'' else '"') then return (folding.flush, cursor.skip)
      let (folding, cursor) ← Folding.gap none (fuel + 1) folding cursor
      readFrom single fuel folding.flush cursor

def read (single : Bool) (cursor : Cursor) : Option (String × Cursor) := do
  let (folding, cursor) ← readFrom single (cursor.rest.length + 1) {} cursor
  return (folding.result, cursor)

end Quoted

namespace Block

inductive Chomping where
  | strip
  | clip
  | keep
  deriving DecidableEq

def chomping? (cursor : Cursor) : Option Chomping :=
  if cursor.is '+' then some .keep else if cursor.is '-' then some .strip else none

def increment? (cursor : Cursor) : Option (Option Nat) :=
  match cursor.peek with
  | some '0' => none
  | some c => if c.isDigit then some (some (c.toNat - '0'.toNat)) else some none
  | none => some none

def header (cursor : Cursor) : Option (Chomping × Option Nat × Cursor) := do
  match chomping? cursor with
  | some chomping =>
      let cursor := cursor.skip
      match ← increment? cursor with
      | some n => return (chomping, some n, cursor.skip)
      | none => return (chomping, none, cursor)
  | none =>
      match ← increment? cursor with
      | some n =>
          let cursor := cursor.skip
          match chomping? cursor with
          | some chomping => return (chomping, some n, cursor.skip)
          | none => return (.clip, some n, cursor)
      | none => return (.clip, none, cursor)

def emptyLines (indent : Option Nat) :
    Nat → Nat → List Char → Cursor → Option (Nat × List Char × Cursor)
  | 0, deepest, breaks, cursor => some (deepest, breaks, cursor)
  | fuel + 1, deepest, breaks, cursor => do
      let spaces := (cursor.rest.takeWhile (· == ' ')).length
      let cursor := cursor.advance (match indent with
        | some n => min spaces (n - cursor.column)
        | none => spaces)
      let deepest := max deepest cursor.column
      if cursor.is '\t' && indent.all (cursor.column < ·) then failure
      match cursor.peek with
      | some c =>
          if isBreak c then
            emptyLines indent fuel deepest (breakChar c :: breaks) cursor.skipBreak
          else return (deepest, breaks, cursor)
      | none => return (deepest, breaks, cursor)

structure State where
  text : List Char := []
  leading : List Char := []
  trailing : List Char := []
  afterBlank : Bool := false

def addLine (literal : Bool) (state : State) (line : List Char) : State :=
  let blank := line.head?.any isBlank
  let folds := !literal && state.leading == ['\n'] && !state.afterBlank && !blank
  let joined :=
    if folds then (if state.trailing.isEmpty then [' '] else state.trailing)
    else state.trailing ++ state.leading
  { text := line.reverse ++ joined ++ state.text, afterBlank := blank }

def lines (literal : Bool) (indent : Nat) :
    Nat → State → Cursor → Option (State × Cursor)
  | 0, state, cursor => some (state, cursor)
  | fuel + 1, state, cursor => do
      if cursor.column != indent || cursor.atEnd then return (state, cursor)
      let (line, cursor) := cursor.span (!isBreak ·)
      let state := addLine literal state line
      let leading := (cursor.peek.map breakChar).toList
      let (_, trailing, cursor) ← emptyLines (some indent) (fuel + 1) 0 [] cursor.skipBreak
      lines literal indent fuel { state with leading, trailing } cursor

def chomp (chomping : Chomping) (state : State) : String :=
  let text := match chomping with
    | .strip => state.text
    | .clip => state.leading ++ state.text
    | .keep => state.trailing ++ state.leading ++ state.text
  String.ofList text.reverse

def read (literal : Bool) (outer : Int) (cursor : Cursor) : Option (String × Cursor) := do
  let (chomping, increment, cursor) ← header cursor
  let cursor := cursor.toLineEnd
  if !cursor.atLineEnd then failure
  let cursor := cursor.skipBreak
  let given := increment.map fun n => if 0 ≤ outer then outer.toNat + n else n
  let fuel := cursor.rest.length + 1
  let (deepest, trailing, cursor) ← emptyLines given fuel 0 [] cursor
  let indent := given.getD (max (max deepest (outer + 1).toNat) 1)
  let (state, cursor) ← lines literal indent fuel { trailing } cursor
  return (chomp chomping state, cursor)

end Block

end Tollgate.Yaml
