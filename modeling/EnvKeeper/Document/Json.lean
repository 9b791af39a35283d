import EnvKeeper.Report
import EnvKeeper.Text.Character

/-! Documents as JSON in ASCII: one item a line, indented by two for each level. A character that
is not printable ASCII is escaped by its UTF-16 units. -/

namespace EnvKeeper.Json

def unit (n : Nat) : List Char := '\\' :: 'u' :: hex 4 n

def escape (c : Char) : List Char :=
  if c = '"' ∨ c = '\\' then ['\\', c]
  else if c = '\n' then ['\\', 'n']
  else if c = '\r' then ['\\', 'r']
  else if c = '\t' then ['\\', 't']
  else if c = '\x0c' then ['\\', 'f']
  else if c = '\x08' then ['\\', 'b']
  else if 0x20 ≤ c.toNat ∧ c.toNat ≤ 0x7E then [c]
  else if c.toNat < 0x10000 then unit c.toNat
  else
    let n := c.toNat - 0x10000
    unit (0xD800 + n / 0x400) ++ unit (0xDC00 + n % 0x400)

def string (s : String) : List Char := '"' :: s.toList.flatMap escape ++ ['"']

def indent (n : Nat) : List Char := List.replicate n ' '

/-- Lays out items between two brackets, in a line that is indented by `n`. -/
def bracket (opening closing : Char) (n : Nat) (items : List (List Char)) : List Char :=
  if items.isEmpty then [opening, closing]
  else
    opening :: '\n' :: [',', '\n'].intercalate (items.map (indent (n + 2) ++ ·))
      ++ '\n' :: indent n ++ [closing]

mutual

def value (n : Nat) : Document → List Char
  | .text s => string s
  | .number k => (Nat.repr k).toList
  | .list l => bracket '[' ']' n (values (n + 2) l)
  | .table f => bracket '\x7b' '\x7d' n (fields (n + 2) f)

def values (n : Nat) : List Document → List (List Char)
  | [] => []
  | d :: l => value n d :: values n l

def fields (n : Nat) : List (String × Document) → List (List Char)
  | [] => []
  | (k, d) :: f => (string k ++ ':' :: ' ' :: value n d) :: fields n f

end

end EnvKeeper.Json

namespace EnvKeeper

def Document.json (d : Document) : String := String.ofList (Json.value 0 d)

end EnvKeeper
