import EnvKeeper.Command.Reply
import EnvKeeper.Disk.Change

/-! The program: it looks at the real disk, carries out the command line on what it saw, and makes
the changes that come out of that. Links are seen with their final targets, and only those files are
read that the command line looks into. -/

namespace EnvKeeper.Main

abbrev Look := StateT Disk IO

/-- The place `l` as an entry of the outermost directory. Nothing is asked about the entry itself: its
`path`, which sets the directory before the names, is what the real disk is asked about. -/
def rootEntry (l : Location) : IO.FS.DirEntry := ⟨"/", "/".intercalate l⟩

def kindOf (l : Location) : IO (Option IO.FS.FileType) :=
  try return some (← (rootEntry l).path.symlinkMetadata).type
  catch _ => return none

def targetOf (l : Location) : IO String :=
  try return (← IO.FS.realPath (rootEntry l).path).toString
  catch _ => return (rootEntry l).path.toString

/-- Puts what is at `l` on the disk and says what it is. Files are still empty. -/
def lookAt (l : Location) : Look (Option Entry) := do
  let entry ← match ← kindOf l with
    | some .dir => pure (some Entry.directory)
    | some .file => pure (some (Entry.file []))
    | some .symlink => pure (some (Entry.link (← targetOf l)))
    | _ => pure none
  if let some e := entry then modify fun d => d.put l e
  return entry

/-- Looks at every name on the way from `l`. -/
partial def lookAlong (links : Nat) (l : Location) : List String → Look Unit
  | [] => return
  | n :: todo => do
    if n = "" ∨ n = "." then lookAlong links l todo
    else if n = ".." then lookAlong links l.dropLast todo
    else match ← lookAt (l ++ [n]) with
      | some .directory => lookAlong links (l ++ [n]) todo
      | some (.link target) =>
        if links > 0 then lookAlong (links - 1) [] (Path.splitText target ++ todo)
      | _ => return

def lookFor (p : Path) : Look Unit := do
  lookAlong Disk.linkLimit ((← get).start p) p.names

/-- Looks at all that is in the directory at `l` and below, and behind its links. -/
partial def lookBelow (l : Location) : Look Unit := do
  let names ← try pure ((← (rootEntry l).path.readDir).toList.map (·.fileName)) catch _ => pure []
  for n in names do
    let here := l ++ [n]
    if ((← get).at? here).isNone then
      match ← lookAt here with
      | some .directory => lookBelow here
      | some (.link target) =>
        let p := Path.ofText target
        lookFor p
        if let .directory m := (← get).resolve p then
          if ((← get).namesAt m).isEmpty then lookBelow m
      | _ => pure ()

def fill (p : Path) : Look Unit := do
  if let .file l _ := (← get).resolve p then
    let bytes ← try pure (← IO.FS.readBinFile (rootEntry l).path).toList catch _ => pure []
    modify fun d => d.put l (.file bytes)

def selectionOf : Command.Task → Selection
  | .update _ s _ _ | .check _ s | .scan s _ _ => s
  | .help => {}

/-- The store that a task reads and the file that it writes beside it. -/
def pathsOf (root : Path) (preset : Option String) : Command.Task → List Path
  | .update store .. | .check store _ =>
    [(SyncRequest.target { root, store := Command.chosenStore store preset }).path]
  | .scan _ _ output => output.toList
  | .help => []

def look (r : Command.Request) (preset : Option String) (here : Location) : Look Unit := do
  let root := r.root.getD ⟨.root, here⟩
  lookFor ⟨.root, here⟩
  lookFor root
  if let .directory l := (← get).resolve root then lookBelow l
  let paths := pathsOf root preset r.task
  paths.forM fun p => do
    lookFor p.parent
    lookFor p
    fill p
  if let .ok files := (← get).candidates root (selectionOf r.task) then
    files.forM fun q => fill (root.append q)

/-- Makes a change on the real disk. A file that grows is only added to. -/
def make (before : Disk) : Location × Option Entry → IO Unit
  | (l, some .directory) => IO.FS.createDir (rootEntry l).path
  | (l, some (.file bytes)) => do
    match before.at? l with
    | some (.file old) =>
      if old.isPrefixOf bytes then
        let h ← IO.FS.Handle.mk (rootEntry l).path .append
        h.write (bytes.drop old.length).toByteArray
      else IO.FS.writeBinFile (rootEntry l).path bytes.toByteArray
    | _ => IO.FS.writeBinFile (rootEntry l).path bytes.toByteArray
  | _ => return

end EnvKeeper.Main

open EnvKeeper in
def main (args : List String) : IO UInt32 := do
  let here := (Path.ofText (← IO.currentDir).toString).names
  let preset ← IO.getEnv "ENV_SCAN_ENV_FILE"
  let mut disk : Disk := ⟨[], here⟩
  if let .ok r := Command.Request.read args then
    (_, disk) ← (Main.look r preset here).run disk
  let (reply, after) := Command.execute args preset disk
  (disk.changes after).forM (Main.make disk)
  (← IO.getStdout).putStr reply.output
  (← IO.getStderr).putStr reply.errors
  if let .error t := reply.ending then IO.eprintln ("Error: " ++ t.message)
  return reply.exitCode.toUInt32
