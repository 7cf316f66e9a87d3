import Tollgate.Clock.Moment

/-!
# Shells

A shell is what a command runs in: it prints, reads files, appends to logs and
knows the time.  Commands are written once for every shell.
-/

namespace Tollgate

structure FileError where
  text : String
  code : Option Nat := none
  deriving DecidableEq, Repr

namespace FileError

def message (error : FileError) : String :=
  match error.code with
  | some code => error.text ++ " (os error " ++ toString code ++ ")"
  | none => error.text

def missing : FileError := ⟨"No such file or directory", some 2⟩

def notDirectory : FileError := ⟨"Not a directory", some 20⟩

def isDirectory : FileError := ⟨"Is a directory", some 21⟩

def nameTooLong : FileError := ⟨"File name too long", some 36⟩

def nulByte : FileError := ⟨"file name contained an unexpected NUL byte", none⟩

def notText : FileError := ⟨"stream did not contain valid UTF-8", none⟩

end FileError

class Shell (m : Type → Type) where
  print : String → m Unit
  complain : String → m Unit
  read : String → m (Except FileError String)
  openLog : String → m (Except FileError Unit)
  append : String → String → m (Except FileError Unit)
  now : m Moment
  freshId : m String

end Tollgate
