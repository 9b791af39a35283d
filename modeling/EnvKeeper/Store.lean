import EnvKeeper.Declarations.Parse
import EnvKeeper.Run
import EnvKeeper.Table

/-! The store: the `.env` file at a path. It is made when missing and after that only added to: the
names it lacks, in a block of one blank line and a line `NAME=` for each. A last line that does not end
in LF is ended first. A path that leads to no file reads as an empty store. -/

namespace EnvKeeper

def missing (found declared : List String) : List String :=
  ascending (found.filter fun n => !declared.contains n)

namespace Additions

def lines (names : List String) : List Char := names.flatMap fun n => n.toList ++ ['=', '\n']

/-- The block for `names` behind bytes that end in `tail`. -/
def block (tail : List UInt8) (names : List String) : List Char :=
  if names.isEmpty then []
  else if tail = [] ∨ tail = [10] then '\n' :: lines names
  else '\n' :: '\n' :: lines names

end Additions

theorem mem_missing {found declared : List String} {n : String} :
    n ∈ missing found declared ↔ n ∈ found ∧ n ∉ declared := by
  simp [missing, mem_ascending]

structure Store where
  path : Path
  deriving DecidableEq, Repr

/-- How an update ended: the names that the store lacked, whether they were written, and why not. -/
structure Update where
  added : List String
  written : Bool := false
  error : Option String := none
  deriving DecidableEq, Repr

namespace Store

def header : List Char := "# Environment Variables\n".toList

def inDirectory (dir : Path) : Store := ⟨dir.append [".env"]⟩

def name (s : Store) : String := s.path.text

def isThere (s : Store) (d : Disk) : Bool := d.isFile s.path

def bytes (s : Store) (d : Disk) : List UInt8 := (d.bytes? s.path).getD []

def text (s : Store) (d : Disk) : Except Utf8.Fault (List Char) :=
  (Utf8.decode (s.bytes d)).map unifyLineEnds

def tail (s : Store) (d : Disk) : List UInt8 := (s.bytes d).getLast?.toList

/-- What the store declares. One that cannot be read declares nothing. -/
def entries (s : Store) (d : Disk) : Table String String :=
  match s.text d with
  | .ok t => Declarations.entries t
  | .error _ => []

def notices (s : Store) (d : Disk) : List Notice :=
  match s.text d with
  | .ok t => (Declarations.malformed t).map .malformed
  | .error f => [.storeUnreadable s.name f.message]

def load (s : Store) : Run (Table String String) := do
  let d ← Run.disk
  Run.sayAll ((s.notices d).map .notice)
  return s.entries d

/-- Makes the store with its header if it is missing, and says whether it was there. -/
def ensure (s : Store) : Run Bool := do
  if s.isThere (← Run.disk) then return true
  Run.note (.storeMissing s.name)
  let (made, d) := (← Run.disk).makeDirectories s.path.parent
  Run.setDisk d
  match made, d.replace s.path (Utf8.encode header) with
  | .error e, _ => throw (.disk e)
  | .ok (), .error e => throw (.disk e)
  | .ok (), .ok d => Run.setDisk d
  return false

def missing (s : Store) (found : List String) (declared : Option (List String)) :
    Run (List String) := do
  match declared with
  | some names => return EnvKeeper.missing found names
  | none => return EnvKeeper.missing found (← s.load).keys

/-- Adds the names of `found` that are not declared, by the store if nothing else says what is. -/
def reconcile (s : Store) (found : List String) (declared : Option (List String))
    (dryRun : Bool) : Run Update := do
  let added ← s.missing found declared
  if added = [] then
    Run.note (.nothingToAdd s.name)
    return { added }
  if dryRun then return { added }
  let d ← Run.disk
  match d.append s.path (Utf8.encode (Additions.block (s.tail d) added)) with
  | .ok d =>
    Run.setDisk d
    Run.note (.namesAdded added.length s.name)
    return { added, written := true }
  | .error .nul => throw (.disk .nul)
  | .error e =>
    Run.note (.storeNotUpdated s.name e.message)
    return { added, error := some e.message }

end Store

end EnvKeeper
