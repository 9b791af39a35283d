import EnvKeeper.Reference.Basic
import EnvKeeper.Table
import EnvKeeper.Text.Split

/-! The references in a text, from left to right and without overlap. Only a bare `env` must stand
free on its left. A dotted name takes all name characters, and no word character may follow it. -/

namespace EnvKeeper

def startsWord (s : List Char) : Bool := s.head?.any isWord

def readQuoted? (stop : Char) : List Char → Option (Quote × List Char × Quote)
  | [] => none
  | o :: s =>
    match Quote.ofChar? o, s.takeWhile isNameChar, s.dropWhile isNameChar with
    | some o, c :: name, q :: e :: _ =>
      if e = stop then (Quote.ofChar? q).map fun q => (o, c :: name, q) else none
    | _, _, _ => none

def Access.read? : List Char → Option (Access × List Char)
  | [] => none
  | c :: s =>
    if c = '.' then
      let name := s.takeWhile isNameChar
      if name.isEmpty || startsWord (s.dropWhile isNameChar) then none else some (.member, name)
    else if c = '[' then (readQuoted? ']' s).map fun (o, name, q) => (.index o q, name)
    else if c = '(' then (readQuoted? ')' s).map fun (o, name, q) => (.call o q, name)
    else none

namespace Reference

/-- Reads the reference that starts `s`, which `before` stands in front of. -/
def read? (spaces : List Namespace) (before : Option Char) (s : List Char) : Option Reference :=
  spaces.findSome? fun n =>
    if n = .env && before.any isWord then none
    else (afterStart? n.text s).bind fun rest =>
      (Access.read? rest).map fun (a, name) => ⟨n, a, name⟩

/-- The references in `s` with their places. The first `skip` characters belong to a reference
already found. -/
def search (spaces : List Namespace) (before : Option Char) (pos skip : Nat) :
    List Char → List (Nat × Reference)
  | [] => []
  | c :: s =>
    match skip with
    | k + 1 => search spaces (some c) (pos + 1) k s
    | 0 =>
      match read? spaces before (c :: s) with
      | some r => (pos, r) :: search spaces (some c) (pos + 1) (r.text.length - 1) s
      | none => search spaces (some c) (pos + 1) 0 s

def inText (s : List Char) : List (Nat × Reference) := search Namespace.all none 0 0 s

/-- The names in order of their references, repeats included. -/
def names (s : List Char) : List String := (inText s).map fun (_, r) => String.ofList r.name

def distinctNames (s : List Char) : List String := (names s).eraseDups

def sortedNames (s : List Char) : List String := ascending (names s)

end Reference
end EnvKeeper
