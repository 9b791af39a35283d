import EnvKeeper.Command.Option
import EnvKeeper.Disk.Basic
import EnvKeeper.Glob.Select

/-! What a command line asks for. -/

namespace EnvKeeper.Command

inductive Format where
  | text
  | json
  | yaml
  deriving DecidableEq, Repr

def Format.read (name : String) : Except Misuse Format :=
  if name = "text" then .ok .text
  else if name = "json" then .ok .json
  else if name = "yaml" then .ok .yaml
  else .error (.unknownFormat name)

/-- Without a command the store is updated. Only the command of that name says so at the end. -/
inductive Task where
  | update (store : Option Path) (selection : Selection) (dryRun named : Bool)
  | check (store : Option Path) (selection : Selection)
  | scan (selection : Selection) (format : Format) (output : Option Path)
  | help
  deriving DecidableEq, Repr

structure Request where
  root : Option Path
  verbose : Bool
  task : Task
  deriving DecidableEq, Repr

/-- The path that an option gives, which can hold no NUL. -/
def Given.path? (g : Given) (o : Opt) : Except Misuse (Option Path) :=
  match g.value? o with
  | none => .ok none
  | some v =>
    if v.toList.contains '\x00' then .error (.nulInPath o.long) else .ok (some (Path.ofText v))

def Given.selection (g : Given) : Selection where
  patterns := g.values .pattern
  excluded := if (g.values .excluded).isEmpty then none else some (g.values .excluded)

def Given.noOthers (g : Given) : Except Misuse Unit :=
  if g.others.isEmpty then .ok () else .error (.extraArguments g.others)

inductive Verb where
  | scan
  | sync
  | check
  deriving DecidableEq, Repr

namespace Verb

def name : Verb → String
  | .scan => "scan"
  | .sync => "sync"
  | .check => "check"

def all : List Verb := [.scan, .sync, .check]

def ofName? (name : String) : Option Verb := all.find? fun v => v.name == name

def options : Verb → List Opt
  | .scan => [.pattern, .excluded, .format, .output, .help]
  | .sync => [.envFile, .pattern, .excluded, .dryRun, .help]
  | .check => [.envFile, .pattern, .excluded, .help]

/-- What a command is to do. Help comes before all that may be wrong with the values. -/
def task (v : Verb) (g : Given) : Except Misuse Task := do
  if g.has .help then return .help
  match v with
  | .scan =>
    let output ← g.path? .output
    g.noOthers
    let format ← Format.read ((g.value? .format).getD "text")
    return .scan g.selection format output
  | .sync =>
    let store ← g.path? .envFile
    g.noOthers
    return .update store g.selection (g.has .dryRun) true
  | .check =>
    let store ← g.path? .envFile
    g.noOthers
    return .check store g.selection

end Verb

def meant : List String → List String
  | [] => []
  | typed :: _ => nearest typed (Verb.all.map Verb.name)

def generalOptions : List Opt := [.root, .verbose, .help]

/-- What is wrong with arguments that start with no command, unless they ask for help: behind `--`
they may be options after all, but out of place. -/
def Task.ofStray (name : String) (args : List String) : Except Rejection Task :=
  match readArguments generalOptions false args with
  | .error s => .error ⟨s.misuse, meant s.unread⟩
  | .ok g =>
    if g.has .help then .ok .help
    else match g.path? .root with
      | .error m => .error ⟨m, meant g.others⟩
      | .ok _ => .error ⟨.noSuchCommand name, meant g.others⟩

def Task.read : List String → Except Rejection Task
  | [] => .ok (.update none {} false false)
  | name :: args =>
    match Verb.ofName? name with
    | none => Task.ofStray name (name :: args)
    | some v =>
      match readArguments v.options true args with
      | .error s => .error ⟨s.misuse, []⟩
      | .ok g => (v.task g).mapError (⟨·, []⟩)

def Request.read (args : List String) : Except Rejection Request :=
  match readArguments generalOptions false args with
  | .error s => .error ⟨s.misuse, []⟩
  | .ok g =>
    if g.has .help then .ok ⟨none, false, .help⟩
    else match g.path? .root with
      | .error m => .error ⟨m, []⟩
      | .ok root => (Task.read g.others).map (⟨root, g.has .verbose, ·⟩)

end EnvKeeper.Command
