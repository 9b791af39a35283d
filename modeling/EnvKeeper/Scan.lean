import EnvKeeper.Glob.Select
import EnvKeeper.Reference.Search
import EnvKeeper.Report
import EnvKeeper.Run
import EnvKeeper.Text.Split

/-! A scan: every candidate file is read and searched for references. A file that cannot be read is
reported and skipped. -/

namespace EnvKeeper

/-- A candidate file and the names in it, in order of their first reference. -/
structure Scanned where
  file : String
  names : Except Utf8.Fault (List String)

namespace Scanned

def ofFile (d : Disk) (root : Path) (q : List String) : Scanned :=
  ⟨"/".intercalate q,
    (Utf8.decode ((d.bytes? (root.append q)).getD [])).map fun s =>
      Reference.distinctNames (unifyLineEnds s)⟩

def notices (s : Scanned) : List Notice :=
  match s.names with
  | .ok [] => []
  | .ok names => [.namesFound s.file names]
  | .error f => [.fileSkipped s.file f.message]

end Scanned

namespace Report

def take (r : Report) (s : Scanned) : Report :=
  match s.names with
  | .ok names => { r with scanned := r.scanned + 1 }.add s.file names
  | .error f => { r with errors := r.errors ++ ["Could not read " ++ s.file ++ ": " ++ f.message] }

def ofScanned (root : Path) (l : List Scanned) : Report := l.foldl take { root := root.text }

end Report

def scan (root : Path) (s : Selection) : Run Report := do
  let d ← Run.disk
  match d.candidates root s with
  | .error e => throw (.pattern e)
  | .ok files =>
    let scanned := files.map (Scanned.ofFile d root)
    Run.note (.filesFound files.length root.text)
    Run.sayAll ((scanned.flatMap Scanned.notices).map .notice)
    return Report.ofScanned root scanned

end EnvKeeper
