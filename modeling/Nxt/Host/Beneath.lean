import Nxt.Host.Paths

/- Paths confined beneath a directory (fs.hpp) on a tree that does not change, and the guest's files
   (main.cpp). The kernel's part is what the manuals say of `openat` and `openat2`, permissions and
   resources aside. -/
namespace Nxt.Host
open Nxt.Lib

inductive Node where
  | file (ident : Nat)
  | dir (entries : List (Name × Node))
  | link (target : Bytes)

inductive Errno where
  | noent
  | notdir
  | loop
  | nametoolong
  | xdev
  deriving DecidableEq

def nameMax : Nat := 255
def pathMax : Nat := 4096

/-- The entry of a directory, a link being an entry of its own. -/
def Node.entry : Node → Name → Except Errno Node
  | .dir entries, name =>
    if nameMax < name.length then .error .nametoolong
    else match entries.find? (·.1 = name) with
      | some e => .ok e.2
      | none => .error .noent
  | _, _ => .error .notdir

def Node.isLink : Node → Bool
  | .link _ => true
  | _ => false

/-- What a kernel says of a link that is opened with O_DIRECTORY and O_NOFOLLOW: Linux and macOS
    differ here. -/
structure Kernel where
  linkAsDirectory : Errno
  documented : linkAsDirectory = .loop ∨ linkAsDirectory = .notdir

/-- `openat` of one name with O_NOFOLLOW, with or without O_DIRECTORY. -/
def Kernel.openat (k : Kernel) (parent : Node) (name : Name) (directory : Bool) : Except Errno Node :=
  if pathMax ≤ name.length then .error .nametoolong
  else match parent.entry name with
    | .error e => .error e
    | .ok (.link _) => .error (if directory then k.linkAsDirectory else .loop)
    | .ok (.file ident) => if directory then .error .notdir else .ok (.file ident)
    | .ok (.dir entries) => .ok (.dir entries)

/-- The walk of `openat2` with RESOLVE_BENEATH and RESOLVE_NO_SYMLINKS, `above` being the
    directories down to this one. -/
def walkBeneath (above : List Node) (here : Node) : List Name → Except Errno Node
  | [] => .ok here
  | name :: rest =>
    if name = [] ∨ name = dot then
      match here with
      | .dir entries => walkBeneath above (.dir entries) rest
      | _ => .error .notdir
    else if name = dotdot then
      match above with
      | [] => .error .xdev
      | up :: above => walkBeneath above up rest
    else match here.entry name with
      | .error e => .error e
      | .ok (.link _) => .error .loop
      | .ok next => walkBeneath (here :: above) next rest

def openat2 (dirfd : Node) (path : Bytes) : Except Errno Node :=
  if path = [] then .error .noent
  else if pathMax ≤ path.length then .error .nametoolong
  else walkBeneath [] dirfd (segments path)

inductive Failure where
  | invalidArgument (message : String)
  | errno (e : Errno)
  deriving DecidableEq

def beneathSegments (path : Bytes) : Except Failure (List Name) :=
  if path = [] then .ok []
  else if (segments path).any fun name => name = [] || name = dot || name = dotdot || name.contains 0 then
    .error (.invalidArgument "path must be relative, '/'-separated plain names")
  else .ok (segments path)

/-- The loop of `resolve_beneath`. -/
def descend (k : Kernel) (parent : Node) : List Name → Except Errno Node
  | [] => .ok parent
  | name :: rest =>
    match k.openat parent name true with
    | .ok next => descend k next rest
    | .error e =>
      -- a refused link is ELOOP everywhere
      match e, parent.entry name with
      | .notdir, .ok (.link _) => .error .loop
      | e, _ => .error e

/-- `resolve_beneath`: the last directory with the final name, or no name for the directory itself. -/
def resolveBeneath (k : Kernel) (dirfd : Node) (path : Bytes) : Except Failure (Node × Option Name) := do
  let names ← beneathSegments path
  match names.getLast? with
  | none => .ok (dirfd, none)
  | some name =>
    match descend k dirfd names.dropLast with
    | .ok parent => .ok (parent, some name)
    | .error e => .error (.errno e)

/-- `open_beneath` with flags that neither create nor ask for a directory. -/
def openBeneath (k : Kernel) (dirfd : Node) (path : Bytes) : Except Failure Node := do
  match ← resolveBeneath k dirfd path with
  | (parent, none) => .ok parent
  | (parent, some name) => (k.openat parent name false).mapError .errno

/-- `files::open_beneath`, on a wand with or without asynchronous files. -/
def filesOpenBeneath (k : Kernel) (asynchronous : Bool) (dirfd : Node) (path : Bytes) : Except Failure Node := do
  let _ ← beneathSegments path
  if asynchronous ∧ path ≠ [] then (openat2 dirfd path).mapError .errno else openBeneath k dirfd path

/-- The directories granted with --dir. -/
abbrev Granted := List (Name × List (Name × Node))

structure EffectError where
  code : String
  cause : Failure
  deriving DecidableEq

/-- The granted directory that a guest path names, and the rest of the path. -/
def beneath (granted : Granted) (path : Bytes) : Except EffectError (Node × Bytes) :=
  match granted.find? (·.1 = path.takeWhile (· ≠ slash)) with
  | none => .error ⟨"NOT-CAPABLE", .invalidArgument "path is not beneath a granted --dir"⟩
  | some found => .ok (.dir found.2, (path.dropWhile (· ≠ slash)).drop 1)

def filesystemFailure : Failure → EffectError
  | .invalidArgument message => ⟨"INVALID-ARGUMENT", .invalidArgument message⟩
  | .errno e =>
    ⟨match e with
      | .noent | .notdir => "NOT-FOUND"
      | .loop => "NOT-CAPABLE"
      | _ => "IO", .errno e⟩

def openRegular (k : Kernel) (asynchronous : Bool) (granted : Granted) (path : Bytes) : Except EffectError Node := do
  let (dir, relative) ← beneath granted path
  match filesOpenBeneath k asynchronous dir relative with
  | .error e => .error (filesystemFailure e)
  | .ok (.file ident) => .ok (.file ident)
  | .ok _ => .error ⟨"INVALID-ARGUMENT", .invalidArgument "not a regular file"⟩

inductive Descends : Node → List Name → Node → Prop
  | here {node} : Descends node [] node
  | entry {entries name next rest node} : PlainName name → slash ∉ name → (Node.dir entries).entry name = .ok next →
      next.isLink = false → Descends next rest node → Descends (.dir entries) (name :: rest) node

end Nxt.Host
