import EnvKeeper.Command.Request
import EnvKeeper.Document.Json
import EnvKeeper.Document.Yaml.Layout
import EnvKeeper.Sync

/-! What each task does, and what it says to the reader. -/

namespace EnvKeeper.Command

/-- A check ends `incomplete` when names are missing. -/
inductive Ending where
  | done
  | incomplete
  deriving DecidableEq, Repr

def reportLines (r : Report) : List Event :=
  r.errors.map (fun e => .warning ("warning: " ++ e)) ++
    if r.files.isEmpty then [.line "\nNo environment variables found in your codebase."]
    else
      .line ("\n" ++ Nat.repr r.names.length ++ " unique environment variables found in "
        ++ Nat.repr r.files.length ++ " files")
      :: .line "\nEnvironment variables found in files:"
      :: r.files.flatMap fun (path, names) =>
        [.line ("  " ++ path ++ ":"), .line ("    " ++ ", ".intercalate names)]

def storeLine (o : SyncOutcome) (dryRun : Bool) : Event :=
  match o.createError with
  | some reason => .warning ("warning: could not create " ++ o.store.name ++ ": " ++ reason)
  | none =>
    if !o.created then .line ("Found existing " ++ o.store.name)
    else if dryRun then .line (o.store.name ++ " does not exist yet")
    else .line ("Created new " ++ o.store.name)

def updateLines (o : SyncOutcome) (dryRun : Bool) : List Event :=
  match o.update.error with
  | some reason => [.warning ("warning: could not update " ++ o.store.name ++ ": " ++ reason)]
  | none =>
    if o.update.added.isEmpty then [.line "No new environment variables to add."]
    else
      .line ((if dryRun then "Would add " else "Added ") ++ Nat.repr o.update.added.length
        ++ " environment variables to " ++ o.store.name ++ ":")
      :: o.update.added.map fun n => .line ("  + " ++ n)

def update (q : SyncRequest) : Run SyncOutcome := do
  Run.say (.line "env-scan - Environment Variables Scanner")
  let o ← sync q
  Run.sayAll <|
    storeLine o q.dryRun
    :: .line ("Found " ++ Nat.repr o.loaded ++ " existing environment variables")
    :: reportLines o.report ++ .line "" :: updateLines o q.dryRun
  return o

def check (root : Path) (store : Store) (selection : Selection) : Run Ending := do
  let names := (← scan root selection).names
  let missing ← store.missing names none
  if missing.isEmpty then
    Run.say (.line (store.name ++ " declares all " ++ Nat.repr names.length
      ++ " referenced variables"))
    return .done
  Run.sayAll <|
    .line (store.name ++ " is missing " ++ Nat.repr missing.length ++ " variables:")
    :: missing.map fun n => .line ("  - " ++ n)
  return .incomplete

def showReport (r : Report) : Format → List Event
  | .json => [.line r.document.json]
  | .yaml => [.line r.document.yaml]
  | .text =>
    reportLines r ++
      if r.names.isEmpty then []
      else .line "\nAll unique variables:" :: r.names.map fun n => .line ("  - " ++ n)

/-- Prints the report of a scan, or writes it as JSON to a file. -/
def inspect (root : Path) (selection : Selection) (format : Format) : Option Path → Run Unit
  | none => do
    let r ← scan root selection
    Run.sayAll (showReport r format)
  | some output => do
    let r ← scan root selection
    match (← Run.disk).replace output (Utf8.encode r.document.json.toList) with
    | .error e => throw (.disk e)
    | .ok d =>
      Run.setDisk d
      Run.say (.line ("Snapshot saved to " ++ output.text))

/-- The store that is meant: one named by an option, or by the environment variable unless it is
empty, or the one in the root. -/
def chosenStore (option : Option Path) (preset : Option String) : Option Path :=
  option <|> preset.bind fun v => if v.isEmpty then none else some (Path.ofText v)

def usage : String := "Usage: env-scan [--root DIRECTORY] [-v] [scan|sync|check] [OPTIONS]"

def Request.perform (r : Request) (preset : Option String) : Run Ending := do
  let root := r.root.getD ⟨.root, (← Run.disk).here⟩
  match r.task with
  | .update option selection dryRun named =>
    let o ← update { root, store := chosenStore option preset, selection, dryRun }
    if named && o.update.written then
      Run.say (.line "\nDone! Your .env file is now in sync with your codebase.")
    return .done
  | .check option selection =>
    check root (SyncRequest.target { root, store := chosenStore option preset }) selection
  | .scan selection format output =>
    inspect root selection format output
    return .done
  | .help =>
    Run.say (.line usage)
    return .done

end EnvKeeper.Command
