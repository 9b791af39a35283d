import EnvKeeper.Text.Split

/-! Bare words to which YAML 1.1, as PyYAML 6.0.3 resolves it, gives a type other than text: the null,
booleans, integers, floats, timestamps, and the words of merging and default values. -/

namespace EnvKeeper.Yaml

def isOneOf (words : List String) (s : List Char) : Bool := words.any fun w => w.toList == s

def isNull (s : List Char) : Bool := isOneOf ["", "~", "null", "Null", "NULL"] s

def isBoolean (s : List Char) : Bool :=
  isOneOf ["yes", "Yes", "YES", "no", "No", "NO", "true", "True", "TRUE", "false", "False", "FALSE",
    "on", "On", "ON", "off", "Off", "OFF"] s

def isSpecial (s : List Char) : Bool := isOneOf ["<<", "="] s

def dropSign : List Char → List Char
  | '+' :: s => s
  | '-' :: s => s
  | s => s

def isDigitOr (extra : List Char) (c : Char) : Bool := c.isDigit || extra.contains c

/-- A digit, then digits and `_`. -/
def isNumeral : List Char → Bool
  | [] => false
  | c :: s => c.isDigit && s.all (isDigitOr ['_'])

/-- A piece of a sexagesimal number behind the first: `0` to `59`. -/
def isSixtieth : List Char → Bool
  | [c] => c.isDigit
  | [b, c] => decide ('0' ≤ b ∧ b ≤ '5') && c.isDigit
  | _ => false

def isSexagesimal (s : List Char) : Bool :=
  match splitOn ':' s with
  | first :: second :: more => isNumeral first && (second :: more).all isSixtieth
  | _ => false

def isHexOr (c : Char) : Bool :=
  isDigitOr ['_'] c || decide ('a' ≤ c ∧ c ≤ 'f') || decide ('A' ≤ c ∧ c ≤ 'F')

def isInteger (s : List Char) : Bool :=
  match dropSign s with
  | '0' :: 'b' :: d => !d.isEmpty && d.all fun c => c == '0' || c == '1' || c == '_'
  | '0' :: 'x' :: d => !d.isEmpty && d.all isHexOr
  | '0' :: d => d.all fun c => decide ('0' ≤ c ∧ c ≤ '7') || c == '_'
  | s => isNumeral s || isSexagesimal s

/-- Nothing, or `e`, a sign and digits. -/
def isExponent : List Char → Bool
  | [] => true
  | e :: sign :: d =>
    (e == 'e' || e == 'E') && (sign == '+' || sign == '-') && !d.isEmpty && d.all Char.isDigit
  | _ => false

def isFraction (s : List Char) : Bool := isExponent (s.dropWhile (isDigitOr ['_']))

def isFloat (s : List Char) : Bool :=
  let unsigned := dropSign s
  let whole := unsigned.takeWhile (· != '.')
  match unsigned.dropWhile (· != '.') with
  | [] => false
  | _ :: rest =>
    if whole.isEmpty then
      isOneOf ["inf", "Inf", "INF"] rest
        || (unsigned == s && (isOneOf ["nan", "NaN", "NAN"] rest
          || (rest.head?.any Char.isDigit && isFraction rest)))
    else (isNumeral whole && isFraction rest)
      || (isSexagesimal whole && rest.all (isDigitOr ['_']))

def dropDigits? (low high : Nat) (s : List Char) : Option (List Char) :=
  let n := ((s.take high).takeWhile Char.isDigit).length
  if low ≤ n then some (s.drop n) else none

def dropChar? (c : Char) : List Char → Option (List Char)
  | [] => none
  | d :: s => if d = c then some s else none

def isGap (c : Char) : Bool := c == ' ' || c == '\t'

def dropTimeMark? : List Char → Option (List Char)
  | [] => none
  | c :: s =>
    if c = 'T' ∨ c = 't' then some s
    else if isGap c then some (s.dropWhile isGap)
    else none

/-- Nothing, `Z`, or a signed offset of hours and perhaps minutes. -/
def isZone (s : List Char) : Bool :=
  match s.dropWhile isGap with
  | [] => s.isEmpty
  | c :: z =>
    if c = 'Z' then z.isEmpty
    else if c = '+' ∨ c = '-' then
      match dropDigits? 1 2 z with
      | none => false
      | some [] => true
      | some m => ((dropChar? ':' m).bind (dropDigits? 2 2)).any List.isEmpty
    else false

def isDate (s : List Char) : Bool :=
  Option.any List.isEmpty do
    let s ← dropDigits? 4 4 s
    let s ← dropChar? '-' s
    let s ← dropDigits? 2 2 s
    let s ← dropChar? '-' s
    dropDigits? 2 2 s

def isDateTime (s : List Char) : Bool :=
  Option.any isZone do
    let s ← dropDigits? 4 4 s
    let s ← dropChar? '-' s
    let s ← dropDigits? 1 2 s
    let s ← dropChar? '-' s
    let s ← dropDigits? 1 2 s
    let s ← dropTimeMark? s
    let s ← dropDigits? 1 2 s
    let s ← dropChar? ':' s
    let s ← dropDigits? 2 2 s
    let s ← dropChar? ':' s
    let s ← dropDigits? 2 2 s
    return match s with
      | '.' :: f => f.dropWhile Char.isDigit
      | s => s

/-- Whether a bare `s` would be read as something else than a text. -/
def isTyped (s : List Char) : Bool :=
  isNull s || isBoolean s || isSpecial s || isInteger s || isFloat s || isDate s || isDateTime s

end EnvKeeper.Yaml
