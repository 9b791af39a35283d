import EnvKeeper.Disk.Basic
import EnvKeeper.Glob.Wildcard

/-! Patterns for paths below a directory, part by part. -/

namespace EnvKeeper

/-- A name as it is, a wildcard for one name, any number of directories (`**`), or nothing at all,
which a last slash leaves and which asks that what comes before be a directory. -/
inductive Part where
  | name (n : String)
  | wild (tokens : List Token)
  | anyDepth
  | slash
  deriving DecidableEq, Repr

abbrev Pattern := List Part

inductive PatternError where
  | empty
  | absolute
  | noParts
  | onlySlash
  | starsInName
  deriving DecidableEq, Repr

def PatternError.message : PatternError → String
  | .empty => "Unacceptable pattern: ''"
  | .absolute => "Non-relative patterns are unsupported"
  | .noParts => "tuple index out of range"
  | .onlySlash => "'_TerminatingSelector' object has no attribute 'select_from'"
  | .starsInName => "Invalid pattern: '**' can only be an entire path component"

def hasStars : List Char → Bool
  | '*' :: '*' :: _ => true
  | _ :: s => hasStars s
  | [] => false

def Part.read (n : String) : Except PatternError Part :=
  let s := n.toList
  if n = "**" then .ok .anyDepth
  else if hasStars s then .error .starsInName
  else if s.any fun c => c == '*' || c == '?' || c == '[' then .ok (.wild (Token.read s))
  else .ok (.name n)

def Pattern.read (text : String) : Except PatternError Pattern := do
  let p := Path.ofText text
  if text = "" then throw .empty
  if p.anchor ≠ .relative then throw .absolute
  let last : Pattern := if text.toList.getLast? = some '/' then [.slash] else []
  if p.names = [] then throw (if last = [] then .noParts else .onlySlash)
  return (← p.names.mapM Part.read) ++ last

end EnvKeeper
