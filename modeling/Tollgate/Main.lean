import Tollgate.Command.Basic
import Std.Time.DateTime.Timestamp

/-!
# The program

Commands run here in the world itself: the files are those of the machine, and
the time is that of its clock.
-/

namespace Tollgate.World

def fileError : IO.Error → FileError
  | .noFileOrDirectory _ code text | .permissionDenied _ code text
  | .inappropriateType _ code text | .alreadyExists _ code text
  | .invalidArgument _ code text | .resourceExhausted _ code text
  | .noSuchThing _ code text | .interrupted _ code text
  | .otherError code text | .resourceBusy code text | .resourceVanished code text
  | .unsupportedOperation code text | .hardwareFault code text
  | .unsatisfiedConstraints code text | .illegalOperation code text
  | .protocolError code text | .timeExpired code text => ⟨text, some code.toNat⟩
  | .unexpectedEof => ⟨"unexpected end of file", none⟩
  | .userError text => ⟨text, none⟩

def attempt {α : Type} (path : String) (action : IO α) : IO (Except FileError α) := do
  if path.toList.contains '\x00' then return .error .nulByte
  match ← action.toBaseIO with
  | .ok value => return .ok value
  | .error error => return .error (fileError error)

def readText (path : String) : IO (Except FileError String) := do
  match ← attempt path (IO.FS.readBinFile path) with
  | .error error => return .error error
  | .ok bytes =>
      match String.fromUTF8? bytes with
      | some text => return .ok text
      | none => return .error .notText

def append (path text : String) : IO (Except FileError Unit) :=
  attempt path (IO.FS.withFile path .append fun file => file.putStr text)

def now : IO Moment := do
  let moment ← Std.Time.Timestamp.now
  let nanos := moment.toNanosecondsSinceUnixEpoch.val
  return {
    second := nanos / 1000000000
    nano := (nanos % 1000000000).toNat
    inSecond := by omega }

def freshId : IO String := do
  let bytes ← IO.getRandomBytes 16
  let digits := bytes.toList.flatMap fun byte =>
    [Nat.digitChar (byte.toNat / 16), Nat.digitChar (byte.toNat % 16)]
  let group (start length : Nat) := String.ofList ((digits.drop start).take length)
  return "-".intercalate [group 0 8, group 8 4, group 12 4, group 16 4, group 20 12]

instance : Shell IO where
  print := fun text => do IO.print text; (← IO.getStdout).flush
  complain := IO.eprint
  read := readText
  openLog := fun path => append path ""
  append := append
  now := now
  freshId := freshId

end Tollgate.World

def main (arguments : List String) : IO UInt32 := do
  let code ← Tollgate.Command.perform arguments
  return code.toUInt32
