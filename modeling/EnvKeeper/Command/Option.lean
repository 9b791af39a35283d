import EnvKeeper.Command.Misuse

/-! Options on a command line: `--name value`, `--name=value`, `-n value`, `-nvalue`, and flags, of
which short ones may be run together. The value of an option may be empty or look like an option.
Two dashes alone end the options. -/

namespace EnvKeeper.Command

inductive Opt where
  | root
  | verbose
  | envFile
  | pattern
  | excluded
  | format
  | output
  | dryRun
  | help
  deriving DecidableEq, Repr

namespace Opt

def long : Opt → String
  | .root => "--root"
  | .verbose => "--verbose"
  | .envFile => "--env-file"
  | .pattern => "--include"
  | .excluded => "--exclude"
  | .format => "--format"
  | .output => "--output"
  | .dryRun => "--dry-run"
  | .help => "--help"

def short? : Opt → Option Char
  | .verbose => some 'v'
  | .pattern => some 'i'
  | .excluded => some 'x'
  | .format => some 'f'
  | _ => none

def isFlag : Opt → Bool
  | .verbose | .dryRun | .help => true
  | _ => false

end Opt

/-- The options given, in order, and the other arguments. A flag has an empty value. -/
structure Given where
  options : List (Opt × String) := []
  others : List String := []
  deriving DecidableEq, Repr

namespace Given

def values (g : Given) (o : Opt) : List String :=
  g.options.filterMap fun (p, v) => if p = o then some v else none

/-- Of an option that is repeated the last value counts. -/
def value? (g : Given) (o : Opt) : Option String := (g.values o).getLast?

def has (g : Given) (o : Opt) : Bool := g.options.any fun (p, _) => p == o

def add (l : List (Opt × String)) (g : Given) : Given := { g with options := l ++ g.options }

end Given

/-- What one argument says: flags, and perhaps an option, called by `name`, with its value if the
argument holds it. -/
structure Reading where
  flags : List Opt := []
  last : Option (Opt × String × Option String) := none
  deriving DecidableEq, Repr

def readShort (known : List Opt) : List Char → Except Misuse Reading
  | [] => .ok {}
  | c :: s =>
    let name := String.ofList ['-', c]
    match known.find? fun o => o.short? == some c with
    | none => .error (.noSuchOption name [])
    | some o =>
      if o.isFlag then (readShort known s).map fun r => { r with flags := o :: r.flags }
      else .ok { last := some (o, name, if s.isEmpty then none else some (String.ofList s)) }

def readOption (known : List Opt) (arg : String) : Except Misuse Reading :=
  let s := arg.toList
  let name := String.ofList (s.takeWhile (· != '='))
  let attached := match s.dropWhile (· != '=') with
    | [] => none
    | _ :: v => some (String.ofList v)
  match known.find? fun o => o.long == name with
  | some o =>
    if !o.isFlag then .ok { last := some (o, name, attached) }
    else if attached.isSome then .error (.valueUnwanted name)
    else .ok { flags := [o] }
  | none =>
    if s.take 2 = ['-', '-'] then .error (.noSuchOption name (nearest name (known.map Opt.long)))
    else readShort known s.tail

/-- Where reading arguments ended early, with those that were not read any more. -/
structure Stop where
  misuse : Misuse
  unread : List String
  deriving DecidableEq, Repr

/-- Reads arguments. Unless options may stand behind other arguments, the first of these ends the
options. -/
def readArguments (known : List Opt) (mixed : Bool) : List String → Except Stop Given
  | [] => .ok {}
  | arg :: rest => do
    if arg = "--" then return { others := rest }
    if arg.toList.head? = some '-' ∧ arg ≠ "-" then
      let r ← (readOption known arg).mapError (⟨·, rest⟩)
      let flags := r.flags.map fun o => (o, "")
      match r.last with
      | none => return (← readArguments known mixed rest).add flags
      | some (o, _, some v) => return (← readArguments known mixed rest).add (flags ++ [(o, v)])
      | some (o, name, none) =>
        match rest with
        | [] => throw ⟨.valueMissing name, []⟩
        | v :: rest => return (← readArguments known mixed rest).add (flags ++ [(o, v)])
    else if mixed then
      let g ← readArguments known mixed rest
      return { g with others := arg :: g.others }
    else return { others := arg :: rest }

end EnvKeeper.Command
