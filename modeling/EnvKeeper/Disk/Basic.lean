import EnvKeeper.Table
import EnvKeeper.Text.Split

/-! Paths as text, and a disk. Of a path repeated slashes, `.` and a last slash vanish and `..` stays.
Two leading slashes stay two; any other number of them counts as one. A disk says what is at each
location, a location being the names from the top down, and which directory relative paths start
from. -/

namespace EnvKeeper

inductive Anchor where
  | relative
  | root
  | doubleRoot
  deriving DecidableEq, Repr

def Anchor.text : Anchor → String
  | .relative => ""
  | .root => "/"
  | .doubleRoot => "//"

structure Path where
  anchor : Anchor
  names : List String
  deriving DecidableEq, Repr

namespace Path

def splitText (s : String) : List String := (splitOn '/' s.toList).map String.ofList

def ofText (s : String) : Path :=
  let anchor := match (s.toList.takeWhile (· == '/')).length with
    | 0 => Anchor.relative
    | 2 => .doubleRoot
    | _ => .root
  ⟨anchor, (splitText s).filter fun n => n != "" && n != "."⟩

def text (p : Path) : String :=
  if p.anchor = .relative ∧ p.names = [] then "." else p.anchor.text ++ "/".intercalate p.names

/-- The names of a path, with the root as the first one if there is a root. -/
def parts (p : Path) : List String :=
  if p.anchor = .relative then p.names else p.anchor.text :: p.names

def append (p : Path) (names : List String) : Path := { p with names := p.names ++ names }

/-- The path without its last name. The empty path and the root are their own parents. -/
def parent (p : Path) : Path := { p with names := p.names.dropLast }

def hasNul (p : Path) : Bool := p.names.any fun n => n.toList.contains '\x00'

end Path

abbrev Location := List String

inductive Entry where
  | file (bytes : List UInt8)
  | link (target : String)
  | directory
  deriving DecidableEq, Repr

structure Disk where
  entries : Table Location Entry
  here : Location
  deriving DecidableEq, Repr

namespace Disk

/-- The top is always a directory. -/
def at? (d : Disk) (l : Location) : Option Entry :=
  if l = [] then some .directory else d.entries.get? l

def put (d : Disk) (l : Location) (e : Entry) : Disk := { d with entries := d.entries.put l e }

/-- Takes away what is at `l` and below. -/
def erase (d : Disk) (l : Location) : Disk :=
  { d with entries := d.entries.filter fun (k, _) => !l.isPrefixOf k }

@[simp] theorem put_here (d : Disk) (l : Location) (e : Entry) : (d.put l e).here = d.here := rfl

theorem at?_put (d : Disk) {l : Location} (m : Location) (e : Entry) (h : l ≠ []) :
    (d.put l e).at? m = if l = m then some e else d.at? m := by
  unfold at? put
  by_cases hm : m = []
  · subst hm
    simp [h]
  · simp [hm, Table.get?_put]

end Disk

end EnvKeeper
