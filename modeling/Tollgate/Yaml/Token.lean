import Tollgate.Yaml.Tag

/-!
# Tokens

A text is cut into tokens.  Indentation opens and closes block collections, and
a colon turns the token before it on its line into the key of a mapping.
-/

namespace Tollgate.Yaml

inductive Style where
  | plain
  | singleQuoted
  | doubleQuoted
  | literal
  | folded
  deriving DecidableEq, Repr

inductive Token where
  | version (major minor : Nat)
  | tagHandle (handle : String) (expansion : Tag)
  | documentStart
  | documentEnd
  | blockSequenceStart
  | blockMappingStart
  | blockEnd
  | flowSequenceStart
  | flowSequenceEnd
  | flowMappingStart
  | flowMappingEnd
  | blockEntry
  | flowEntry
  | key
  | value
  | alias (name : String)
  | anchor (name : String)
  | tag (handle : String) (suffix : Tag)
  | scalar (style : Style) (text : String)
  deriving DecidableEq, Repr

structure PossibleKey where
  required : Bool
  position : Nat
  offset : Nat
  line : Nat
  column : Nat

structure Scanner where
  cursor : Cursor
  tokens : List Token := []
  indent : Int := -1
  outerIndents : List Int := []
  /-- One entry for the block context and one for every open flow collection. -/
  keys : List (Option PossibleKey) := [none]
  keyAllowed : Bool := true

namespace Scanner

def inFlow (s : Scanner) : Bool := 1 < s.keys.length

def emit (s : Scanner) (token : Token) : Scanner := { s with tokens := token :: s.tokens }

def insertAt (s : Scanner) (position : Nat) (token : Token) : Scanner :=
  let later := s.tokens.length - position
  { s with tokens := s.tokens.take later ++ token :: s.tokens.drop later }

def advance (s : Scanner) (n : Nat) : Scanner := { s with cursor := s.cursor.advance n }

def openBlock (s : Scanner) (column position : Nat) (token : Token) : Scanner :=
  if s.inFlow || (column : Int) ≤ s.indent then s
  else
    { s.insertAt position token with
      indent := column
      outerIndents := s.indent :: s.outerIndents }

def closeBlocks (s : Scanner) (column : Int) : Scanner :=
  if s.inFlow then s else go s.outerIndents s
where
  go : List Int → Scanner → Scanner
    | [], s => s
    | outer :: rest, s =>
        if column < s.indent then
          go rest { s.emit .blockEnd with indent := outer, outerIndents := rest }
        else s

/-- Gives up the possible key of the current level, which must not be a required one. -/
def dropKey (s : Scanner) : Option Scanner :=
  match s.keys with
  | some key :: rest => if key.required then none else some { s with keys := none :: rest }
  | _ => some s

def saveKey (s : Scanner) : Option Scanner := do
  if !s.keyAllowed then return s
  let key : PossibleKey :=
    { required := !s.inFlow && s.indent == s.cursor.column
      position := s.tokens.length
      offset := s.cursor.offset
      line := s.cursor.line
      column := s.cursor.column }
  let s ← s.dropKey
  return { s with keys := some key :: s.keys.drop 1 }

/-- A key ends on its own line, within 1024 bytes. -/
def isStale (cursor : Cursor) (key : PossibleKey) : Bool :=
  key.line < cursor.line || key.offset + 1024 < cursor.offset

def dropStale (s : Scanner) : Option Scanner := do
  let keys ← s.keys.mapM fun
    | some key =>
        if isStale s.cursor key then (if key.required then failure else pure none)
        else pure (some key)
    | none => pure none
  return { s with keys }

def toNextToken : Nat → Scanner → Scanner
  | 0, s => s
  | fuel + 1, s =>
      let tabs := s.inFlow || !s.keyAllowed
      let cursor := s.cursor.skipByteOrderMark
      let cursor := cursor.skipWhile fun c => c == ' ' || (tabs && c == '\t')
      let cursor := if cursor.is '#' then cursor.skipWhile (!isBreak ·) else cursor
      if cursor.nextIs isBreak then
        toNextToken fuel
          { s with cursor := cursor.skipBreak, keyAllowed := s.keyAllowed || !s.inFlow }
      else { s with cursor }

def number? (cursor : Cursor) : Option (Nat × Cursor) := do
  let (digits, cursor) := cursor.span Char.isDigit
  if 9 < digits.length then failure
  return (← Text.digits? digits, cursor)

def directive (cursor : Cursor) : Option (Token × Cursor) := do
  let (name, cursor) := cursor.skip.span isWordChar
  if !cursor.gapAt 0 then failure
  let cursor := cursor.skipWhile isBlank
  let (token, cursor) ←
    match String.ofList name with
    | "YAML" => do
        let (major, cursor) ← number? cursor
        if !cursor.is '.' then failure
        let (minor, cursor) ← number? cursor.skip
        pure (Token.version major minor, cursor)
    | "TAG" => do
        if !cursor.is '!' then failure
        let (handle, cursor) := Tag.handleAt cursor
        if handle != "!" && !handle.endsWith "!" then failure
        if !cursor.nextIs isBlank then failure
        let (expansion, cursor) ← Tag.partAt true (cursor.skipWhile isBlank)
        if !cursor.gapAt 0 then failure
        pure (Token.tagHandle handle expansion, cursor)
    | _ => failure
  let cursor := cursor.toLineEnd
  if !cursor.atLineEnd then failure
  return (token, cursor.skipBreak)

def anchorName (cursor : Cursor) : Option (String × Cursor) := do
  let (name, cursor) := cursor.skip.span isWordChar
  if name.isEmpty then failure
  if !(cursor.gapAt 0 || cursor.nextIs fun c => "?:,]\x7d%@\x60".toList.contains c) then failure
  return (String.ofList name, cursor)

def tagToken (flow : Bool) (cursor : Cursor) : Option (Token × Cursor) := do
  let (handle, suffix, cursor) ← Tag.partsAt cursor
  if !(cursor.gapAt 0 || (flow && cursor.is ',')) then failure
  return (.tag handle suffix, cursor)

def fetchEnd (s : Scanner) : Option Scanner := (s.closeBlocks (-1)).dropKey

def fetchDirective (s : Scanner) : Option Scanner := do
  let s ← (s.closeBlocks (-1)).dropKey
  let (token, cursor) ← directive s.cursor
  return { s.emit token with cursor, keyAllowed := false }

def fetchMark (s : Scanner) (token : Token) : Option Scanner := do
  let s ← (s.closeBlocks (-1)).dropKey
  return { (s.emit token).advance 3 with keyAllowed := false }

def fetchFlowStart (s : Scanner) (token : Token) : Option Scanner := do
  let s ← s.saveKey
  return { (s.emit token).advance 1 with keys := none :: s.keys, keyAllowed := true }

def fetchFlowEnd (s : Scanner) (token : Token) : Option Scanner := do
  let s ← s.dropKey
  let keys := if s.inFlow then s.keys.drop 1 else s.keys
  return { (s.emit token).advance 1 with keys, keyAllowed := false }

def fetchFlowEntry (s : Scanner) : Option Scanner := do
  let s ← s.dropKey
  return { (s.emit .flowEntry).advance 1 with keyAllowed := true }

def fetchBlockEntry (s : Scanner) : Option Scanner := do
  if !s.inFlow && !s.keyAllowed then failure
  let s := s.openBlock s.cursor.column s.tokens.length .blockSequenceStart
  let s ← s.dropKey
  return { (s.emit .blockEntry).advance 1 with keyAllowed := true }

def fetchKey (s : Scanner) : Option Scanner := do
  if !s.inFlow && !s.keyAllowed then failure
  let s := s.openBlock s.cursor.column s.tokens.length .blockMappingStart
  let s ← s.dropKey
  return { (s.emit .key).advance 1 with keyAllowed := !s.inFlow }

def fetchValue (s : Scanner) : Option Scanner := do
  match s.keys with
  | some key :: rest =>
      let s := (s.insertAt key.position .key).openBlock key.column key.position .blockMappingStart
      return { (s.emit .value).advance 1 with keys := none :: rest, keyAllowed := false }
  | _ =>
      if !s.inFlow && !s.keyAllowed then failure
      let s := s.openBlock s.cursor.column s.tokens.length .blockMappingStart
      return { (s.emit .value).advance 1 with keyAllowed := !s.inFlow }

def fetchNode (s : Scanner) (read : Scanner → Option (Token × Cursor)) : Option Scanner := do
  let s ← s.saveKey
  let (token, cursor) ← read s
  return { s.emit token with cursor, keyAllowed := false }

def fetchPlain (s : Scanner) : Option Scanner := do
  let s ← s.saveKey
  let (text, broken, cursor) ← Plain.read s.inFlow (s.indent + 1) s.cursor
  return { s.emit (.scalar .plain text) with cursor, keyAllowed := broken }

def fetchBlock (s : Scanner) (style : Style) : Option Scanner := do
  let s ← s.dropKey
  let (text, cursor) ← Block.read (style == .literal) s.indent s.cursor.skip
  return { s.emit (.scalar style text) with cursor, keyAllowed := true }

def startsPlain (s : Scanner) (c : Char) : Bool :=
  let cursor := s.cursor
  !(isGap c || "-?:,[]\x7b\x7d#&*!|>'\"%@\x60".toList.contains c) ||
    (c == '-' && !(cursor.peekAt 1).any isBlank) ||
    (!s.inFlow && (c == '?' || c == ':') && !cursor.gapAt 1)

def fetch (s : Scanner) (c : Char) : Option Scanner :=
  let cursor := s.cursor
  if cursor.column == 0 && c == '%' then s.fetchDirective
  else if cursor.atMark '-' then s.fetchMark .documentStart
  else if cursor.atMark '.' then s.fetchMark .documentEnd
  else if c == '[' then s.fetchFlowStart .flowSequenceStart
  else if c == '\x7b' then s.fetchFlowStart .flowMappingStart
  else if c == ']' then s.fetchFlowEnd .flowSequenceEnd
  else if c == '\x7d' then s.fetchFlowEnd .flowMappingEnd
  else if c == ',' then s.fetchFlowEntry
  else if c == '-' && cursor.gapAt 1 then s.fetchBlockEntry
  else if c == '?' && (s.inFlow || cursor.gapAt 1) then s.fetchKey
  else if c == ':' && (s.inFlow || cursor.gapAt 1) then s.fetchValue
  else if c == '*' then
    s.fetchNode fun s => (anchorName s.cursor).map fun (name, c) => (.alias name, c)
  else if c == '&' then
    s.fetchNode fun s => (anchorName s.cursor).map fun (name, c) => (.anchor name, c)
  else if c == '!' then s.fetchNode fun s => tagToken s.inFlow s.cursor
  else if c == '|' && !s.inFlow then s.fetchBlock .literal
  else if c == '>' && !s.inFlow then s.fetchBlock .folded
  else if c == '\'' then
    s.fetchNode fun s =>
      (Quoted.read true s.cursor.skip).map fun (text, c) => (.scalar .singleQuoted text, c)
  else if c == '"' then
    s.fetchNode fun s =>
      (Quoted.read false s.cursor.skip).map fun (text, c) => (.scalar .doubleQuoted text, c)
  else if s.startsPlain c then s.fetchPlain
  else none

def run : Nat → Scanner → Option Scanner
  | 0, _ => none
  | fuel + 1, s => do
      let s := toNextToken (s.cursor.rest.length + 1) s
      let s ← s.dropStale
      let s := s.closeBlocks s.cursor.column
      match s.cursor.peek with
      | none => s.fetchEnd
      | some c => run fuel (← s.fetch c)

end Scanner

def tokenize (text : String) : Option (List Token) := do
  let chars := text.toList
  if !chars.all isAllowed then failure
  let s ← Scanner.run (chars.length + 1) { cursor := { rest := chars } }
  return s.tokens.reverse

end Tollgate.Yaml
