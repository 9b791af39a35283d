/-! Escapes in quoted values: a backslash and the character behind it. Only the known ones stand
for another character; the others stay as they are written. -/

namespace EnvKeeper.Declarations

def inSingle (c : Char) : Option Char :=
  if c = '\\' ∨ c = '\'' then some c else none

def inDouble (c : Char) : Option Char :=
  if c = '\\' ∨ c = '\'' ∨ c = '"' then some c
  else if c = 'a' then some '\x07'
  else if c = 'b' then some '\x08'
  else if c = 'f' then some '\x0c'
  else if c = 'n' then some '\n'
  else if c = 'r' then some '\r'
  else if c = 't' then some '\t'
  else if c = 'v' then some '\x0b'
  else none

def unescape (known : Char → Option Char) : List Char → List Char
  | [] => []
  | [c] => [c]
  | c :: d :: s =>
    if c = '\\' then
      match known d with
      | some e => e :: unescape known s
      | none => c :: d :: unescape known s
    else c :: unescape known (d :: s)

/-- Splits `s` at the first `quote` that no backslash stands before. -/
def splitAtQuote (quote : Char) : List Char → Option (List Char × List Char)
  | [] => none
  | c :: s =>
    if c = quote then some ([], s)
    else if c = '\\' then
      match s with
      | [] => none
      | d :: s => (splitAtQuote quote s).map fun (body, rest) => (c :: d :: body, rest)
    else (splitAtQuote quote s).map fun (body, rest) => (c :: body, rest)

theorem splitAtQuote_append {quote : Char} {s body rest : List Char}
    (h : splitAtQuote quote s = some (body, rest)) : s = body ++ quote :: rest := by
  fun_induction splitAtQuote quote s generalizing body rest with
  | case1 => cases h
  | case2 => simp_all
  | case3 => cases h
  | case4 d s _ ih | case5 d s _ _ ih =>
    obtain ⟨⟨b, r⟩, hb, he⟩ := Option.map_eq_some_iff.1 h
    cases he
    simp [ih hb]

end EnvKeeper.Declarations
