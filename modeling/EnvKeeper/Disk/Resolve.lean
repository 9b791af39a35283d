import EnvKeeper.Disk.Basic

/-! Where a path leads. Names are followed from left to right, `..` goes up from where it stands,
and a link is replaced by its target, at most forty times for one path. -/

namespace EnvKeeper

/-- Why a path leads nowhere. With `slash` it leads to a place to write that may only be a
directory. -/
inductive Astray where
  | missing
  | notDirectory
  | loop
  | slash
  | nul
  deriving DecidableEq, Repr

/-- What a path leads to, links followed. At a vacant location there is nothing, but it lies in a
directory. -/
inductive Target where
  | file (l : Location) (bytes : List UInt8)
  | directory (l : Location)
  | vacant (l : Location)
  | astray (why : Astray)
  deriving DecidableEq, Repr

namespace Disk

/-- Follows `todo` from the directory at `l`, up to a link, from which `onLink` goes on. To write,
a name with a slash behind it, as a link target may end in one, is refused before it is looked at. -/
def follow (d : Disk) (writing : Bool) (onLink : Location → List String → Target) :
    Location → List String → Target
  | l, [] => .directory l
  | l, n :: todo =>
    if n = "" ∨ n = "." then follow d writing onLink l todo
    else if n = ".." then follow d writing onLink l.dropLast todo
    else if writing ∧ todo ≠ [] ∧ todo.all (· == "") then .astray .slash
    else match d.at? (l ++ [n]) with
      | none => if todo = [] then .vacant (l ++ [n]) else .astray .missing
      | some (.file bytes) => if todo = [] then .file (l ++ [n]) bytes else .astray .notDirectory
      | some (.link target) =>
        onLink (if target.toList.head? = some '/' then [] else l) (Path.splitText target ++ todo)
      | some .directory => follow d writing onLink (l ++ [n]) todo

/-- Follows `todo` through at most `links` links. -/
def walk (d : Disk) (writing : Bool) : (links : Nat) → Location → List String → Target
  | 0 => d.follow writing fun _ _ => .astray .loop
  | links + 1 => d.follow writing (walk d writing links)

def linkLimit : Nat := 40

def start (d : Disk) (p : Path) : Location := if p.anchor = .relative then d.here else []

def resolve (d : Disk) (p : Path) : Target :=
  if p.hasNul then .astray .nul else d.walk false linkLimit (d.start p) p.names

def destination (d : Disk) (p : Path) : Target :=
  if p.hasNul then .astray .nul else d.walk true linkLimit (d.start p) p.names

def bytes? (d : Disk) (p : Path) : Option (List UInt8) :=
  match d.resolve p with
  | .file _ bytes => some bytes
  | _ => none

def isFile (d : Disk) (p : Path) : Bool := (d.bytes? p).isSome

def isDirectory (d : Disk) (p : Path) : Bool :=
  match d.resolve p with
  | .directory _ => true
  | _ => false

def isThere (d : Disk) (p : Path) : Bool := d.isFile p || d.isDirectory p

theorem follow_true (d : Disk) {f g : Location → List String → Target}
    (h : ∀ l todo, f l todo = .astray .slash ∨ f l todo = g l todo) (l : Location)
    (todo : List String) :
    d.follow true f l todo = .astray .slash ∨ d.follow true f l todo = d.follow false g l todo := by
  induction todo generalizing l with
  | nil => exact .inr rfl
  | cons n todo ih =>
    unfold follow
    split
    · exact ih l
    split
    · exact ih l.dropLast
    split
    · exact .inl rfl
    simp only [Bool.false_eq_true, false_and, if_false]
    split
    · exact .inr rfl
    · exact .inr rfl
    · exact h _ _
    · exact ih _

theorem walk_true (d : Disk) (links : Nat) (l : Location) (todo : List String) :
    d.walk true links l todo = .astray .slash ∨
      d.walk true links l todo = d.walk false links l todo := by
  induction links generalizing l todo with
  | zero => exact d.follow_true (fun _ _ => .inr rfl) l todo
  | succ links ih => exact d.follow_true ih l todo

/-- Writing goes where a path leads, or is refused for a slash. -/
theorem destination_eq (d : Disk) (p : Path) :
    d.destination p = .astray .slash ∨ d.destination p = d.resolve p := by
  unfold destination resolve
  split
  · exact .inr rfl
  · exact d.walk_true _ _ _

end Disk
end EnvKeeper
