import EnvKeeper.Document.Yaml.Typed
import EnvKeeper.Proofs.Document.Json.Reader
import EnvKeeper.Proofs.Document.Written

/-! A reader of YAML 1.1 in block style, for texts of printable ASCII and line ends. It knows bare
scalars and those in single and double quotes, in one line or in several ones, sequences and
mappings, with simple keys and with keys that are marked by `?`, and the empty collections `[]` and
`{}`. What is read is right; comments, tags, anchors, directives, scalars in block style, nulls and
other types than texts and natural numbers have no place in a document and are not read.

A simple key stands in one line and has at most `longest` characters as it is written. YAML 1.1 says
1024. The fields of a mapping are kept in order. -/

namespace EnvKeeper.Yaml

def isWhite (c : Char) : Bool := c == ' ' || c == '\n'

def whites (s : List Char) : List Char := s.takeWhile isWhite

def skipWhites (s : List Char) : List Char := s.dropWhile isWhite

def skipSpaces (s : List Char) : List Char := s.dropWhile (· == ' ')

/-- The column behind white space that starts in column zero or holds a line end. -/
def columnOf (g : List Char) : Nat := (g.reverse.takeWhile (· == ' ')).length

def startsMark (c : Char) : List Char → Bool
  | [] => false
  | d :: s => d == c && s.head?.all isWhite

section Scalars

/-- White space within a scalar. In a line it stands for itself; one line end stands for a space, and
several ones for all but the first. What goes on in a further line is indented by `m` at least. -/
def readWhites (m : Nat) (s : List Char) : Option (List Char × List Char) :=
  let ends := (whites s).count '\n'
  if ends = 0 then some (s.take 1, s.drop 1)
  else if columnOf (whites s) < m then none
  else some (if ends = 1 then [' '] else List.replicate (ends - 1) '\n', skipWhites s)

/-- Reads a piece of a bare scalar, which ends before a comment or the colon of a key. -/
def plainPiece (m : Nat) : List Char → Option (List Char × List Char)
  | [] => none
  | c :: s =>
    if isWhite c then
      if (skipWhites s).head?.all (· == '#') || startsMark ':' (skipWhites s) then none
      else readWhites m (c :: s)
    else if startsMark ':' (c :: s) then none
    else some ([c], s)

def singlePiece (m : Nat) : List Char → Option (List Char × List Char)
  | [] => none
  | c :: s =>
    if isWhite c then readWhites m (c :: s)
    else if c = '\'' then if s.head? = some '\'' then some ([c], s.tail) else none
    else some ([c], s)

def named? (e : Char) : Option Char :=
  [('0', '\x00'), ('a', '\x07'), ('b', '\x08'), ('t', '\t'), ('n', '\n'), ('v', '\x0b'),
    ('f', '\x0c'), ('r', '\r'), ('e', '\x1b'), (' ', ' '), ('"', '"'), ('/', '/'), ('\\', '\\'),
    ('N', '\x85'), ('_', '\xa0'), ('L', '\u2028'), ('P', '\u2029')].lookup e

def digitsOf? (e : Char) : Option Nat := [('x', 2), ('u', 4), ('U', 8)].lookup e

def readEscape : List Char → Option (List Char × List Char)
  | [] => none
  | e :: s =>
    match named? e with
    | some c => some ([c], s)
    | none => do
      let (n, s) ← readHex? (← digitsOf? e) s
      return ([← charOf? n], s)

/-- Reads a piece of a text in double quotes. A line end behind a backslash stands for nothing. -/
def doublePiece (m : Nat) : List Char → Option (List Char × List Char)
  | [] => none
  | c :: s =>
    if isWhite c then readWhites m (c :: s)
    else if c = '"' then none
    else if c = '\\' then
      if s.head? = some '\n' then
        if columnOf (whites s) < m then none
        else some (List.replicate ((whites s).count '\n' - 1) '\n', skipWhites s)
      else readEscape s
    else some ([c], s)

def readPieces (piece : List Char → Option (List Char × List Char)) :
    (k : Nat) → List Char → List Char × List Char
  | 0, s => ([], s)
  | k + 1, s =>
    match piece s with
    | none => ([], s)
    | some (t, s) => let (more, s) := readPieces piece k s; (t ++ more, s)

def readQuoted (piece : List Char → Option (List Char × List Char)) (quote : Char)
    (s : List Char) : Option (Document × List Char) :=
  let (t, s) := readPieces piece (s.length + 1) s
  if s.head? = some quote then some (.text (String.ofList t), s.tail) else none

/-- Whether a bare scalar may start so. Three hyphens or dots are left to the marks of documents. -/
def startsBare : List Char → Bool
  | [] => false
  | c :: s =>
    if c == '-' || c == '?' || c == ':' then
      !s.head?.all isWhite && !(c == '-' && s.take 2 == ['-', '-'])
    else
      !isWhite c && !"#,[]\x7b\x7d&*!|>'\"%@\x60".toList.contains c
        && !(c == '.' && s.take 2 == ['.', '.'])

def ofBare (s : List Char) : Option Document :=
  if isTyped s then
    match Json.readNumber s with
    | some (n, []) => some (.number n)
    | _ => none
  else some (.text (String.ofList s))

/-- Reads what fits between a key and the end of its line: a scalar or an empty collection. Further
lines of a scalar are indented by `m` at least. -/
def readScalar (m : Nat) (s : List Char) : Option (Document × List Char) :=
  match s with
  | '\'' :: s => readQuoted (singlePiece m) '\'' s
  | '"' :: s => readQuoted (doublePiece m) '"' s
  | '[' :: ']' :: s => some (.list [], s)
  | '\x7b' :: '\x7d' :: s => some (.table [], s)
  | s =>
    if startsBare s then
      let (t, rest) := readPieces (plainPiece m) (s.length + 1) s
      (ofBare t).map fun d => (d, rest)
    else none

end Scalars

structure Spot where
  column : Nat
  text : List Char

def spotBehind (c : Nat) (s : List Char) : Spot :=
  ⟨if '\n' ∈ whites s then columnOf (whites s) else c + (whites s).length, skipWhites s⟩

/-- The next token, which is the end or stands in a further line. -/
def nextLine (s : List Char) : Option Spot :=
  if skipWhites s = [] ∨ '\n' ∈ whites s then some (spotBehind 0 s) else none

/-- The token behind a mark, which is indented more than the mark. -/
def behindMark (p : Spot) : Option Spot :=
  let q := spotBehind (p.column + 1) p.text.tail
  if q.text ≠ [] ∧ p.column < q.column then some q else none

def text? : Document → Option String
  | .text s => some s
  | _ => none

section Blocks

variable (longest : Nat)

def readKey (p : Spot) : Option (String × List Char) := do
  let (d, rest) ← readScalar (p.column + 1) p.text
  let key ← text? d
  let rest := skipSpaces rest
  let written := p.text.take (p.text.length - rest.length)
  if startsMark ':' rest ∧ written.length ≤ longest ∧ '\n' ∉ written then return (key, rest.tail)
  else none

mutual

def readNode : (k m : Nat) → Spot → Option (Document × Spot)
  | 0, _, _ => none
  | k + 1, m, p =>
    if startsMark '-' p.text then (readItems k false p).map fun (l, q) => (.list l, q)
    else if startsMark '?' p.text then (readFields k p).map fun (f, q) => (.table f, q)
    else do
      let (d, rest) ← readScalar m p.text
      if startsMark ':' (skipSpaces rest) then
        (readFields k p).map fun (f, q) => (.table f, q)
      else (nextLine rest).map fun q => (d, q)

/-- Reads the items of a sequence. One that is `flush` is the value of a key in the same column. -/
def readItems : (k : Nat) → (flush : Bool) → Spot → Option (List Document × Spot)
  | 0, _, _ => none
  | k + 1, flush, p => do
    let q ← behindMark p
    let (d, next) ← readNode k (p.column + 1) q
    if next.column = p.column ∧ startsMark '-' next.text then
      (readItems k flush next).map fun (l, q) => (d :: l, q)
    else if next.text = [] ∨ next.column < p.column ∨ flush ∧ next.column = p.column then
      return ([d], next)
    else none

def readValue : (k c : Nat) → List Char → Option (Document × Spot)
  | 0, _, _ => none
  | k + 1, c, s =>
    let q := spotBehind 0 s
    if '\n' ∈ whites s then
      if c < q.column then readNode k (c + 1) q
      else if q.column = c ∧ startsMark '-' q.text then
        (readItems k true q).map fun (l, q) => (.list l, q)
      else none
    else do
      let (d, rest) ← readScalar (c + 1) q.text
      return (d, ← nextLine rest)

def readField : (k : Nat) → Spot → Option ((String × Document) × Spot)
  | 0, _ => none
  | k + 1, p =>
    if startsMark '?' p.text then do
      let (d, next) ← readNode k (p.column + 1) (← behindMark p)
      let key ← text? d
      if next.column = p.column ∧ startsMark ':' next.text then
        (readNode k (p.column + 1) (← behindMark next)).map fun (d, q) => ((key, d), q)
      else none
    else do
      let (key, rest) ← readKey longest p
      (readValue k p.column rest).map fun (d, q) => ((key, d), q)

def readFields : (k : Nat) → Spot → Option (List (String × Document) × Spot)
  | 0, _ => none
  | k + 1, p => do
    let (field, next) ← readField k p
    if next.text = [] ∨ next.column < p.column then return ([field], next)
    else if next.column = p.column then (readFields k next).map fun (f, q) => (field :: f, q)
    else none

end

def read (s : List Char) : Option Document :=
  if s.all isAscii then
    match readNode longest (4 * s.length + 4) 1 (spotBehind 0 s) with
    | some (d, q) => if q.text = [] then some d else none
    | none => none
  else none

end Blocks
end EnvKeeper.Yaml
