import EnvKeeper.Proofs.Text.Digits
import EnvKeeper.Report

/-! A reader of JSON, for the values that a document has: texts, natural numbers, arrays and objects.
White space may stand between the tokens, a text may use every escape, and two escaped surrogates
are one character. The fields of an object are kept in order. A text that is read is well-formed;
what has no place in a document, such as a fraction or half of a surrogate pair, is not read. -/

namespace EnvKeeper.Json

def isGap (c : Char) : Bool := c == ' ' || c == '\t' || c == '\n' || c == '\r'

def skipGap (s : List Char) : List Char := s.dropWhile isGap

/-- Reads the number of a character behind `\u`, and its second half if it is the first one of two. -/
def readUnits (s : List Char) : Option (Char × List Char) := do
  let (n, s) ← readHex? 4 s
  if 0xD800 ≤ n ∧ n < 0xDC00 then
    let s ← match s with
      | '\\' :: 'u' :: s => some s
      | _ => none
    let (m, s) ← readHex? 4 s
    if 0xDC00 ≤ m ∧ m < 0xE000 then
      return (← charOf? (0x10000 + (n - 0xD800) * 0x400 + (m - 0xDC00)), s)
    else none
  else return (← charOf? n, s)

def readEscaped : List Char → Option (Char × List Char)
  | [] => none
  | c :: s =>
    if c = '"' ∨ c = '\\' ∨ c = '/' then some (c, s)
    else if c = 'b' then some ('\x08', s)
    else if c = 'f' then some ('\x0c', s)
    else if c = 'n' then some ('\n', s)
    else if c = 'r' then some ('\r', s)
    else if c = 't' then some ('\t', s)
    else if c = 'u' then readUnits s
    else none

/-- Reads a character of a text. A control character must be escaped. -/
def readChar : List Char → Option (Char × List Char)
  | [] => none
  | c :: s =>
    if c = '\\' then readEscaped s
    else if c = '"' ∨ c.toNat < 0x20 then none
    else some (c, s)

/-- Reads a text behind its opening quote, in at most `k` steps. -/
def readText : (k : Nat) → List Char → Option (List Char × List Char)
  | 0, _ => none
  | k + 1, s =>
    if s.head? = some '"' then some ([], s.tail)
    else do
      let (c, s) ← readChar s
      let (t, s) ← readText k s
      return (c :: t, s)

/-- Reads a number, which has no zero in front. -/
def readNumber (s : List Char) : Option (Nat × List Char) :=
  let digits := s.takeWhile Char.isDigit
  if digits = [] ∨ (digits.head? = some '0' ∧ digits ≠ ['0']) then none
  else some (Nat.ofDigitChars 10 digits 0, s.dropWhile Char.isDigit)

mutual

def readValue : (k : Nat) → List Char → Option (Document × List Char)
  | 0, _ => none
  | k + 1, s =>
    match skipGap s with
    | '"' :: s => (readText k s).map fun (t, s) => (.text (String.ofList t), s)
    | '[' :: s =>
      if (skipGap s).head? = some ']' then some (.list [], (skipGap s).tail)
      else (readItems k s).map fun (l, s) => (.list l, s)
    | '\x7b' :: s =>
      if (skipGap s).head? = some '\x7d' then some (.table [], (skipGap s).tail)
      else (readFields k s).map fun (f, s) => (.table f, s)
    | s => (readNumber s).map fun (n, s) => (.number n, s)

def readItems : (k : Nat) → List Char → Option (List Document × List Char)
  | 0, _ => none
  | k + 1, s => do
    let (d, s) ← readValue k s
    match skipGap s with
    | ',' :: s => (readItems k s).map fun (l, s) => (d :: l, s)
    | ']' :: s => some ([d], s)
    | _ => none

def readFields : (k : Nat) → List Char → Option (List (String × Document) × List Char)
  | 0, _ => none
  | k + 1, s => do
    let s ← match skipGap s with
      | '"' :: s => some s
      | _ => none
    let (key, s) ← readText k s
    let s ← match skipGap s with
      | ':' :: s => some s
      | _ => none
    let (d, s) ← readValue k s
    match skipGap s with
    | ',' :: s => (readFields k s).map fun (f, s) => ((String.ofList key, d) :: f, s)
    | '\x7d' :: s => some ([(String.ofList key, d)], s)
    | _ => none

end

def read (s : List Char) : Option Document :=
  match readValue (s.length + 1) s with
  | some (d, rest) => if skipGap rest = [] then some d else none
  | none => none

end EnvKeeper.Json
