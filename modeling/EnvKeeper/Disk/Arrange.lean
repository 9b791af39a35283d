import EnvKeeper.Disk.Change

/-! Directories, links and removals, by which a disk is laid out. The last name of a path is not
followed here. A request for directories that fails may leave those that it has made on its way. -/

namespace EnvKeeper.Disk

def makeDirectory (d : Disk) (p : Path) : Except DiskError Disk :=
  if p.hasNul then .error .nul
  else match p.names.getLast? with
    | none => .error (.refused .exists p)
    | some n =>
      if n = ".." then
        match d.resolve p with
        | .astray a => .error (a.error p)
        | _ => .error (.refused .exists p)
      else match d.resolve p.parent with
        | .directory l =>
          if (d.at? (l ++ [n])).isSome then .error (.refused .exists p)
          else .ok (d.put (l ++ [n]) .directory)
        | .file .. => .error (.refused .notDirectory p)
        | .vacant _ => .error (.refused .notFound p)
        | .astray a => .error (a.error p)

/-- Makes the directory with the names `up`, last one first, and those above it that are missing. -/
def makeDirectoriesUp (anchor : Anchor) : List String → Disk → Except DiskError Unit × Disk
  | [], d => (.ok (), d)
  | n :: up, d =>
    let p : Path := ⟨anchor, (n :: up).reverse⟩
    let settle (d : Disk) (e : DiskError) : Except DiskError Unit × Disk :=
      match e with
      | .refused .notFound _ => (.error e, d)
      | .nul => (.error e, d)
      | _ => if d.isDirectory p then (.ok (), d) else (.error e, d)
    match d.makeDirectory p with
    | .ok d => (.ok (), d)
    | .error (.refused .notFound _) =>
      match makeDirectoriesUp anchor up d with
      | (.error e, d) => (.error e, d)
      | (.ok (), d) =>
        match d.makeDirectory p with
        | .ok d => (.ok (), d)
        | .error e => settle d e
    | .error e => settle d e

def makeDirectories (d : Disk) (p : Path) : Except DiskError Unit × Disk :=
  makeDirectoriesUp p.anchor p.names.reverse d

def slot? (d : Disk) (p : Path) : Option Location :=
  match d.resolve p.parent, p.names.getLast? with
  | .directory l, some n => some (l ++ [n])
  | _, _ => none

/-- The disk with a link at `p`; unchanged if `p` has no place. -/
def link (d : Disk) (p : Path) (target : String) : Disk :=
  match d.slot? p with
  | some l => d.put l (.link target)
  | none => d

def remove (d : Disk) (p : Path) : Disk :=
  match d.slot? p with
  | some l => d.erase l
  | none => d

end EnvKeeper.Disk
