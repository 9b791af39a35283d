import EnvKeeper.Text.Ranges

/-! Characters: white space, those of names and of words, their numbers in base sixteen, and text as
error messages show it. Paths are quoted there: in single quotes, or in double ones when the text holds
a single quote and no double one, and the quote, the backslash and what does not print are escaped.
Elsewhere only control characters are. -/

namespace EnvKeeper

def isLineEnd (c : Char) : Bool := c == '\n' || c == '\r'

/-- White space, line ends included. -/
def isBlank (c : Char) : Bool :=
  let n := c.toNat
  decide (9 ≤ n ∧ n ≤ 13) || decide (0x1C ≤ n ∧ n ≤ 0x20) || n == 0x85 || n == 0xA0 || n == 0x1680
    || decide (0x2000 ≤ n ∧ n ≤ 0x200A) || n == 0x2028 || n == 0x2029 || n == 0x202F || n == 0x205F
    || n == 0x3000

/-- White space within a line. -/
def isInline (c : Char) : Bool := isBlank c && !isLineEnd c

/-- The characters of which names are made: ASCII letters, ASCII digits and `_`. -/
def isNameChar (c : Char) : Bool := c.isAlphanum || c == '_'

def isWord (c : Char) : Bool := isNameChar c || (decide (0x80 ≤ c.toNat) && wordRanges.has c)

theorem isWord_of_isNameChar {c : Char} (h : isNameChar c = true) : isWord c = true := by
  simp [isWord, h]

/-- The last `w` digits of `n`, in lower case. -/
def hex : Nat → Nat → List Char
  | 0, _ => []
  | w + 1, n => hex w (n / 16) ++ [Nat.digitChar (n % 16)]

def hexUpper (w n : Nat) : List Char := (hex w n).map Char.toUpper

theorem hex_length (w n : Nat) : (hex w n).length = w := by
  induction w generalizing n with
  | zero => rfl
  | succ w ih => simp [hex, ih]

namespace Quoted

def isPrintable (c : Char) : Bool :=
  if c.toNat < 0x80 then decide (0x20 ≤ c.toNat ∧ c.toNat < 0x7F) else printRanges.has c

def quoteOf (s : List Char) : Char :=
  if s.contains '\'' && !s.contains '"' then '"' else '\''

def shown (quote c : Char) : List Char :=
  if c == quote || c == '\\' then ['\\', c]
  else if c == '\n' then ['\\', 'n']
  else if c == '\r' then ['\\', 'r']
  else if c == '\t' then ['\\', 't']
  else if isPrintable c then [c]
  else if c.toNat < 0x100 then '\\' :: 'x' :: hex 2 c.toNat
  else if c.toNat < 0x10000 then '\\' :: 'u' :: hex 4 c.toNat
  else '\\' :: 'U' :: hex 8 c.toNat

def encode (s : List Char) : List Char :=
  quoteOf s :: s.flatMap (shown (quoteOf s)) ++ [quoteOf s]

end Quoted

def quoted (s : String) : String := String.ofList (Quoted.encode s.toList)

def isControl (c : Char) : Bool := decide (c.toNat < 0x20 ∨ 0x7F ≤ c.toNat ∧ c.toNat < 0xA0)

/-- The text with each control character written by its number. -/
def legible (s : String) : String :=
  String.ofList <| s.toList.flatMap fun c =>
    if isControl c then '\\' :: 'x' :: hex 2 c.toNat else [c]

end EnvKeeper
