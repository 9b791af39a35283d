import EnvKeeper.Document.Yaml.Typed
import EnvKeeper.Text.Character

/-! Texts as YAML scalars, written as the safe dumper of PyYAML 6.0.3 writes them in ASCII: bare where
that reads back as the same text, else in single quotes, and in double quotes if only escapes can say
it. Long ones are folded behind column eighty. -/

namespace EnvKeeper.Yaml

def isPrintable (c : Char) : Bool := decide (0x20 ≤ c.toNat ∧ c.toNat ≤ 0x7E)

def isBreak (c : Char) : Bool := c == '\n' || c == '\x85' || c == '\u2028' || c == '\u2029'

def hasPair (a b : Char) : List Char → Bool
  | c :: d :: s => (c == a && d == b) || hasPair a b (d :: s)
  | _ => false

/-- Whether the first characters mean something else than themselves. -/
def startsReserved : List Char → Bool
  | [] => false
  | c :: s =>
    "#,[]\x7b\x7d&*!|>'\"%@\x60".toList.contains c
      || ((c == '?' || c == ':' || c == '-') && (s.isEmpty || s.head? == some ' '))
      || (c == '-' && s.take 2 == ['-', '-']) || (c == '.' && s.take 2 == ['.', '.'])

/-- Whether a printable text can stand bare, its type apart. -/
def isBare (s : List Char) : Bool :=
  !startsReserved s && s.head? != some ' ' && s.getLast? != some ' ' && s.getLast? != some ':'
    && !hasPair ':' ' ' s && !hasPair ' ' '#' s

inductive Style where
  | bare
  | single
  | double
  deriving DecidableEq, Repr

/-- Single quotes hold no escapes, and a space beside a line break would be lost in them. -/
def style (s : List Char) : Style :=
  if s.all isPrintable && isBare s && !isTyped s then .bare
  else if (s.all fun c => isPrintable c || c == '\n') && !hasPair ' ' '\n' s && !hasPair '\n' ' ' s then
    .single
  else .double

def spaces (n : Nat) : List Char := List.replicate n ' '

def width : Nat := 80

/-- Where a scalar stands: how far its further lines are indented, and whether it may have any. -/
structure Place where
  indent : Nat
  folds : Bool

/-- Writes `s` behind `before` from column `col`. A single space past the width becomes a new line,
and a line break becomes an empty line. -/
def flow (p : Place) (quote : Char → List Char) (before : Char) (col : Nat) :
    List Char → List Char
  | [] => []
  | c :: s =>
    if c = ' ' then
      if p.folds && before != ' ' && s.head?.any (· != ' ') && decide (width < col) then
        '\n' :: spaces p.indent ++ flow p quote c p.indent s
      else c :: flow p quote c (col + 1) s
    else if c = '\n' then
      (if before = '\n' then [c] else [c, c])
        ++ if s.head? = some '\n' then flow p quote c 0 s
          else spaces p.indent ++ flow p quote c p.indent s
    else quote c ++ flow p quote c (col + (quote c).length) s

def quoteSingle (c : Char) : List Char := if c = '\'' then ['\'', '\''] else [c]

def namedEscapes : List (Char × Char) :=
  [('\x00', '0'), ('\x07', 'a'), ('\x08', 'b'), ('\t', 't'), ('\n', 'n'), ('\x0b', 'v'),
    ('\x0c', 'f'), ('\r', 'r'), ('\x1b', 'e'), ('"', '"'), ('\\', '\\'), ('\x85', 'N'),
    ('\xa0', '_'), ('\u2028', 'L'), ('\u2029', 'P')]

def escape? (c : Char) : Option (List Char) :=
  match namedEscapes.lookup c with
  | some e => some ['\\', e]
  | none =>
    if isPrintable c then none
    else if c.toNat < 0x100 then some ('\\' :: 'x' :: hexUpper 2 c.toNat)
    else if c.toNat < 0x10000 then some ('\\' :: 'u' :: hexUpper 4 c.toNat)
    else some ('\\' :: 'U' :: hexUpper 8 c.toNat)

/-- A line end that counts for nothing. A space behind it must be escaped to count. -/
def lineBreak (p : Place) (next : Option Char) : List Char :=
  '\\' :: '\n' :: spaces p.indent ++ if next = some ' ' then ['\\'] else []

def columnBehind (p : Place) (next : Option Char) : Nat :=
  p.indent + if next = some ' ' then 1 else 0

/-- Writes `s` between double quotes from column `col`. A line may end past the width, behind an
escape or before a space, but neither before the first character nor behind the last two. `fresh`
says that an escape came before. -/
def flowEscaped (p : Place) (first fresh : Bool) (col : Nat) : List Char → List Char
  | [] => []
  | c :: s =>
    let mayBreak := p.folds && !first && !s.isEmpty
    match escape? c with
    | some e =>
      if mayBreak && decide (width < col + e.length - 1) then
        e ++ lineBreak p s.head? ++ flowEscaped p false true (columnBehind p s.head?) s
      else e ++ flowEscaped p false true (col + e.length) s
    | none =>
      if mayBreak && (c == ' ' || fresh) && decide (width < col) then
        lineBreak p (some c) ++ c :: flowEscaped p false false (columnBehind p (some c) + 1) s
      else c :: flowEscaped p false false (col + 1) s

def scalar (p : Place) (col : Nat) (s : List Char) : List Char :=
  match style s with
  | .bare => flow p (fun c => [c]) ' ' col s
  | .single => '\'' :: flow p quoteSingle ' ' (col + 1) s ++ ['\'']
  | .double => '"' :: flowEscaped p true false (col + 1) s ++ ['"']

end EnvKeeper.Yaml
