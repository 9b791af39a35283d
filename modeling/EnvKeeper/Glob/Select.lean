import EnvKeeper.Disk.Resolve
import EnvKeeper.Glob.Pattern
import EnvKeeper.Table

/-! The paths below a directory that a pattern selects, and the files to scan: those that some pattern
selects, less those below an excluded directory, in ascending order of their lists of names. `**` stays
in real directories; names and wildcards also go through links. -/

namespace EnvKeeper

structure Selection where
  patterns : List String := []
  excluded : Option (List String) := none
  deriving DecidableEq, Repr

namespace Selection

def defaultPatterns : List String :=
  ["**/*.js", "**/*.ts", "**/*.jsx", "**/*.tsx", "**/*.prisma", "**/*.env*"]

def defaultExcluded : List String := ["node_modules", "dist", "build", ".git", ".next", "coverage"]

/-- Without patterns the default ones count. -/
def patternsUsed (s : Selection) : List String :=
  if s.patterns = [] then defaultPatterns else s.patterns

def excludedUsed (s : Selection) : List String := s.excluded.getD defaultExcluded

end Selection

namespace Disk

def below? : (base l : Location) → Option Location
  | [], l => some l
  | _ :: _, [] => none
  | a :: base, b :: l => if a = b then below? base l else none

def namesAt (d : Disk) (l : Location) : List String :=
  d.entries.keys.filterMap fun k =>
    match below? l k with
    | some [n] => some n
    | _ => none

def areDirectories (d : Disk) : Location → List String → Bool
  | _, [] => true
  | l, n :: names => d.at? (l ++ [n]) == some .directory && areDirectories d (l ++ [n]) names

/-- The ways down from `l` over directories, the empty one included. -/
def descents (d : Disk) (l : Location) : List (List String) :=
  let directories : Table Location Entry := d.entries.filter fun (_, e) => e == .directory
  [] :: (directories.keys.filterMap (below? l)).filter fun names =>
    names != [] && d.areDirectories l names

def namesIn (d : Disk) (p : Path) : List String :=
  match d.resolve p with
  | .directory l => d.namesAt l
  | _ => []

def descentsIn (d : Disk) (p : Path) : List (List String) :=
  match d.resolve p with
  | .directory l => d.descents l
  | _ => []

/-- The ways in which one part goes on from `q`. All but the last part must give directories. -/
def extend (d : Disk) (root : Path) (isLast : Bool) (q : List String) : Part → List (List String)
  | .name n =>
    let p := root.append (q ++ [n])
    if (if isLast then d.isThere p else d.isDirectory p) then [q ++ [n]] else []
  | .wild tokens =>
    ((d.namesIn (root.append q)).filter fun n =>
      Token.accept tokens n.toList && (isLast || d.isDirectory (root.append (q ++ [n])))).map
        fun n => q ++ [n]
  | .anyDepth => (d.descentsIn (root.append q)).map (q ++ ·)
  | .slash => [q]

/-- The paths that start with one of `qs` and go on as the pattern says. Only behind `**` can the
same path be reached from several of them. -/
def expand (d : Disk) (root : Path) : Pattern → List (List String) → List (List String)
  | [], qs => qs
  | .anyDepth :: ps, qs =>
    expand d root ps (qs.flatMap fun q => d.extend root ps.isEmpty q .anyDepth).eraseDups
  | part :: ps, qs => expand d root ps (qs.flatMap fun q => d.extend root ps.isEmpty q part)

/-- The paths below `root` that a pattern selects; none if `root` is no directory. -/
def select (d : Disk) (root : Path) (pattern : Pattern) : List (List String) :=
  if d.isDirectory root then d.expand root pattern [[]] else []

theorem mem_expand_cons_of {d : Disk} {root : Path} {part : Part} {ps : Pattern}
    {qs : List (List String)} {r : List String}
    (h : ∀ qs, r ∈ d.expand root ps qs ↔ ∃ q ∈ qs, r ∈ d.expand root ps [q]) :
    r ∈ d.expand root (part :: ps) qs ↔
      ∃ q ∈ qs, ∃ c ∈ d.extend root ps.isEmpty q part, r ∈ d.expand root ps [c] := by
  suffices e : r ∈ d.expand root (part :: ps) qs ↔
      ∃ c ∈ qs.flatMap fun q => d.extend root ps.isEmpty q part, r ∈ d.expand root ps [c] by
    rw [e]
    simp only [List.mem_flatMap]
    exact ⟨fun ⟨c, ⟨q, hq, hc⟩, hr⟩ => ⟨q, hq, c, hc, hr⟩,
      fun ⟨q, hq, c, hc, hr⟩ => ⟨c, ⟨q, hq, hc⟩, hr⟩⟩
  cases part with
  | anyDepth =>
    rw [expand, h]
    simp only [List.mem_eraseDups]
  | name | wild | slash => rw [expand, h]; simp

theorem mem_expand {d : Disk} {root : Path} {ps : Pattern} {qs : List (List String)}
    {r : List String} : r ∈ d.expand root ps qs ↔ ∃ q ∈ qs, r ∈ d.expand root ps [q] := by
  induction ps generalizing qs with
  | nil => simp [expand]
  | cons part ps ih => simp [mem_expand_cons_of fun _ => ih]

theorem mem_expand_cons {d : Disk} {root : Path} {part : Part} {ps : Pattern}
    {qs : List (List String)} {r : List String} :
    r ∈ d.expand root (part :: ps) qs ↔
      ∃ q ∈ qs, ∃ c ∈ d.extend root ps.isEmpty q part, r ∈ d.expand root ps [c] :=
  mem_expand_cons_of fun _ => mem_expand

end Disk

/-- Whether a part of a path other than the last is excluded. -/
def isExcluded (excluded parts : List String) : Bool := parts.dropLast.any excluded.contains

/-- The first pattern that cannot be read is the error, whatever is on the disk. -/
def Disk.candidates (d : Disk) (root : Path) (s : Selection) :
    Except PatternError (List (List String)) := do
  let patterns ← s.patternsUsed.mapM Pattern.read
  return ascending <| (patterns.flatMap (d.select root)).filter fun q =>
    d.isFile (root.append q) && !isExcluded s.excludedUsed q

end EnvKeeper
