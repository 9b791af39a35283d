import EnvKeeper.Disk.Resolve
import EnvKeeper.Text.Character

/-! What a request changes on a disk: the files that it writes, why it is refused, with the number and
the wording of each cause, and what differs between two disks. -/

namespace EnvKeeper

inductive Refusal where
  | notFound
  | exists
  | notDirectory
  | isDirectory
  | loop
  deriving DecidableEq, Repr

namespace Refusal

def number : Refusal → Nat
  | .notFound => 2
  | .exists => 17
  | .notDirectory => 20
  | .isDirectory => 21
  | .loop => 40

def text : Refusal → String
  | .notFound => "No such file or directory"
  | .exists => "File exists"
  | .notDirectory => "Not a directory"
  | .isDirectory => "Is a directory"
  | .loop => "Too many levels of symbolic links"

end Refusal

/-- A path with a NUL is refused before the disk is asked. -/
inductive DiskError where
  | refused (cause : Refusal) (path : Path)
  | nul
  deriving DecidableEq, Repr

def DiskError.message : DiskError → String
  | .refused cause path =>
    "[Errno " ++ Nat.repr cause.number ++ "] " ++ cause.text ++ ": " ++ quoted path.text
  | .nul => "embedded null byte"

def Astray.error (p : Path) : Astray → DiskError
  | .missing => .refused .notFound p
  | .notDirectory => .refused .notDirectory p
  | .loop => .refused .loop p
  | .slash => .refused .isDirectory p
  | .nul => .nul

namespace Disk

/-- Writes the file that `p` leads to, which may be a new one; `f` turns its bytes into the new
ones. -/
def update (d : Disk) (p : Path) (f : List UInt8 → List UInt8) : Except DiskError Disk :=
  match d.destination p with
  | .file l bytes => .ok (d.put l (.file (f bytes)))
  | .vacant l => .ok (d.put l (.file (f [])))
  | .directory _ => .error (.refused .isDirectory p)
  | .astray a => .error (a.error p)

def replace (d : Disk) (p : Path) (bytes : List UInt8) : Except DiskError Disk :=
  d.update p fun _ => bytes

def append (d : Disk) (p : Path) (bytes : List UInt8) : Except DiskError Disk :=
  d.update p fun old => old ++ bytes

/-- The locations at which `d` and `e` differ, with what `e` has there. -/
def changes (d e : Disk) : List (Location × Option Entry) :=
  ((d.entries.keys ++ e.entries.keys).eraseDups.filter fun l => d.at? l != e.at? l).map
    fun l => (l, e.at? l)

end Disk
end EnvKeeper
