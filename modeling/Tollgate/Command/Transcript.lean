import Tollgate.Command.Shell

/-!
# Transcripts

A transcript is a shell without a world: a directory of texts, and all that has
been printed.  Outside of the directory there are only the empty directories
above it and the null device.
-/

namespace Tollgate

abbrev Path := List String

inductive Place where
  | directory
  | nullDevice
  | file (path : Path)
  | vacant (path : Path)
  deriving DecidableEq, Repr

structure Transcript where
  files : List (Path × String) := []
  printed : String := ""
  complaints : String := ""
  moment : Moment

namespace Transcript

def namesOf (path : String) : List String := path.splitOn "/"

def root : Path := ["/"]

def above (path : Path) : Path :=
  if path = root then root
  else if path.all (· == "..") then path ++ [".."]
  else path.dropLast

def isDirectory (t : Transcript) (path : Path) : Bool :=
  t.files.any fun file => path.isPrefixOf file.1 && path.length < file.1.length

inductive Purpose where
  | reading
  | appending
  deriving DecidableEq

def isTrailingSlash (names : List String) : Bool := !names.isEmpty && names.all (· == "")

/-- Follows the remaining names of a path, from a directory on.  Only a directory can stand before
a slash at the end, so that nothing can be appended there. -/
def follow (t : Transcript) (purpose : Purpose) (reached : Path) :
    List String → Except FileError Place
  | [] => .ok .directory
  | name :: rest =>
      let next := reached ++ [name]
      if name = "" ∨ name = "." then t.follow purpose reached rest
      else if name = ".." then t.follow purpose (above reached) rest
      else if purpose = .appending ∧ isTrailingSlash rest then .error .isDirectory
      else if 255 < name.utf8ByteSize then .error .nameTooLong
      else if (t.files.lookup next).isSome then
        if rest = [] then .ok (.file next) else .error .notDirectory
      else if t.isDirectory next then t.follow purpose next rest
      else if rest = [] then .ok (.vacant next)
      else .error .missing

/-- A path has at most 4095 bytes, and none of them is zero. -/
def place (t : Transcript) (purpose : Purpose) (path : String) : Except FileError Place :=
  if path.toList.contains '\x00' then .error .nulByte
  else if 4095 < path.utf8ByteSize then .error .nameTooLong
  else if path = "" then .error .missing
  else if path = "/dev/null" then .ok .nullDevice
  else t.follow purpose (if path.startsWith "/" then root else []) (namesOf path)

def read (t : Transcript) (path : String) : Except FileError String :=
  match t.place .reading path with
  | .error error => .error error
  | .ok .directory => .error .isDirectory
  | .ok .nullDevice => .ok ""
  | .ok (.vacant _) => .error .missing
  | .ok (.file path) => .ok ((t.files.lookup path).getD "")

def append (t : Transcript) (path text : String) : Except FileError Transcript :=
  match t.place .appending path with
  | .error error => .error error
  | .ok .directory => .error .isDirectory
  | .ok .nullDevice => .ok t
  | .ok (.vacant path) => .ok { t with files := (path, text) :: t.files }
  | .ok (.file path) =>
      .ok { t with
        files := t.files.map fun file =>
          if file.1 = path then (path, file.2 ++ text) else file }

def appending (path text : String) : StateM Transcript (Except FileError Unit) := do
  match (← get).append path text with
  | .ok t => do set t; return .ok ()
  | .error error => return .error error

instance : Shell (StateM Transcript) where
  print := fun text => modify fun t => { t with printed := t.printed ++ text }
  complain := fun text => modify fun t => { t with complaints := t.complaints ++ text }
  read := fun path => do return (← get).read path
  openLog := fun path => appending path ""
  append := appending
  now := do return (← get).moment
  freshId := return "run"

end Transcript

end Tollgate
