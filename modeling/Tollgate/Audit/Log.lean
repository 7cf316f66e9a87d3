import Tollgate.Audit.Entry
import Tollgate.Json.Printer
import Tollgate.Json.Reader
import Tollgate.Text.Lines

/-!
# Audit logs

A log is a text with one entry a line.  Entries are only ever appended, and
blank lines are passed over when it is read back.  A sink is wherever entries
go; it may refuse them.
-/

namespace Tollgate

inductive AuditError where
  | inaccessible (reason : String)
  | malformed (line : String)
  | unavailable (reason : String)
  deriving DecidableEq, Repr

def AuditError.message : AuditError → String
  | .inaccessible reason => "audit sink I/O error: " ++ reason
  | .malformed line => "audit entry serialization failed: not an entry: " ++ line
  | .unavailable reason => "audit sink unavailable: " ++ reason

namespace AuditLog

def lineOf (entry : AuditEntry) : String := entry.encode.compact ++ "\n"

def append (log : String) (entry : AuditEntry) : String := log ++ lineOf entry

def readLine (line : String) : Except AuditError AuditEntry :=
  match Json.Written.parse? line with
  | none => .error (.malformed line)
  | some document =>
      match AuditEntry.read document with
      | .ok entry => .ok entry
      | .error _ => .error (.malformed line)

def read (log : String) : Except AuditError (List AuditEntry) :=
  ((Text.lines log).filter fun line => !Text.isBlank line).mapM readLine

end AuditLog

structure Sink (τ : Type) where
  record : AuditEntry → τ → Except AuditError Unit × τ

namespace Sink

def memory : Sink (List AuditEntry) where
  record := fun entry entries => (.ok (), entries ++ [entry])

def log : Sink String where
  record := fun entry log => (.ok (), AuditLog.append log entry)

end Sink

structure LimitedLog where
  entries : List AuditEntry := []
  asked : Nat := 0

def Sink.limited (limit : Option Nat) : Sink LimitedLog where
  record := fun entry log =>
    let later := log.asked + 1
    match limit with
    | none => (.ok (), ⟨log.entries ++ [entry], later⟩)
    | some limit =>
        if limit ≤ log.asked then
          (.error (.unavailable ("sink full at " ++ toString log.asked)),
            { log with asked := later })
        else (.ok (), ⟨log.entries ++ [entry], later⟩)

end Tollgate
