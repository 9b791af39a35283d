import EnvKeeper.Declarations.Cursor
import EnvKeeper.Declarations.Escape
import EnvKeeper.Text.Split

/-! One statement of a `.env` text, by the grammar of dotenv 1.2.4: `export`, a key, `=` and a value, a
comment, and the end of the line. Of these only the end of the line must be there. A part that cannot
be read fails at the place that the parts before it have reached. -/

namespace EnvKeeper.Declarations

/-- A comment or a blank line has no key; a key without `=` has no value. -/
structure Binding where
  key : Option (List Char)
  value : Option (List Char)
  deriving DecidableEq, Repr

def isKeyChar (c : Char) : Bool := !(isBlank c || c == '=' || c == '#')

/-- Cuts a value at the first white space that `#` follows. -/
def beforeComment : List Char → List Char
  | c :: d :: s => if isBlank c && d == '#' then [] else c :: beforeComment (d :: s)
  | s => s

namespace Cursor

/-- The word `export` counts only with white space behind it. -/
def skipExport (c : Cursor) : Cursor :=
  match afterStart? "export".toList c.rest with
  | some s => if s.head?.any isInline then skipWhile isInline ⟨s, c.line⟩ else c
  | none => c

def key (c : Cursor) : Except Cursor (Option (List Char) × Cursor) :=
  match c.rest with
  | '#' :: _ => .ok (none, c)
  | '\'' :: s =>
    match s.takeWhile (· != '\''), s.dropWhile (· != '\'') with
    | k :: key, q :: rest => .ok (some (k :: key), c.past ('\'' :: k :: key ++ [q]) rest)
    | _, _ => .error c
  | s =>
    let key := s.takeWhile isKeyChar
    if key.isEmpty then .error c else .ok (some key, c.past key (s.dropWhile isKeyChar))

def quotedValue (quote : Char) (known : Char → Option Char) (c : Cursor) (s : List Char) :
    Except Cursor (List Char × Cursor) :=
  match splitAtQuote quote s with
  | some (body, rest) => .ok (unescape known body, c.past (quote :: body ++ [quote]) rest)
  | none => .error c

/-- Reads a value, white space before it being skipped. -/
def plainValue (c : Cursor) : Except Cursor (List Char × Cursor) :=
  match c.rest with
  | '\'' :: s => quotedValue '\'' inSingle c s
  | '"' :: s => quotedValue '"' inDouble c s
  | s =>
    let raw := s.takeWhile (!isLineEnd ·)
    .ok (dropEnd isBlank (beforeComment raw), c.past raw (s.dropWhile (!isLineEnd ·)))

def value (c : Cursor) : Except Cursor (Option (List Char) × Cursor) :=
  match c.rest with
  | '=' :: s =>
    let d := skipWhile isInline ⟨s, c.line⟩
    if s.head?.any isInline && d.rest.head? == some '#' then .ok (some [], d)
    else do
      let (v, d) ← d.plainValue
      return (some v, d)
  | _ => .ok (none, c)

def skipComment (c : Cursor) : Cursor :=
  match c.rest.dropWhile isInline with
  | '#' :: s => ⟨s.dropWhile (!isLineEnd ·), c.line⟩
  | _ => c

def lineEnd (c : Cursor) : Except Cursor Cursor :=
  match c.rest.dropWhile isInline with
  | [] => .ok ⟨[], c.line⟩
  | '\r' :: '\n' :: s => .ok ⟨s, c.line + 1⟩
  | e :: s => if isLineEnd e then .ok ⟨s, c.line + 1⟩ else .error c

def statement (c : Cursor) : Except Cursor (Binding × Cursor) := do
  let (key, d) ← c.skipExport.key
  let (value, d) ← (d.skipWhile isInline).value
  let d ← d.skipComment.lineEnd
  return (⟨key, value⟩, d)

end Cursor
end EnvKeeper.Declarations
