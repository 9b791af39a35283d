import EnvKeeper.Table

/-! The report of a scan, and the document that it is written down as for other programs. A file is
listed only with names, and one that is added again keeps its place and takes the later names. The
fields of a document keep their order. -/

namespace EnvKeeper

inductive Document where
  | text (s : String)
  | number (n : Nat)
  | list (items : List Document)
  | table (fields : List (String × Document))

namespace Document

def texts (l : List String) : Document := .list (l.map .text)

end Document

structure Report where
  root : String := "."
  files : Table String (List String) := []
  scanned : Nat := 0
  errors : List String := []
  deriving DecidableEq, Repr

namespace Report

def add (r : Report) (path : String) (names : List String) : Report :=
  if names.isEmpty then r else { r with files := r.files.put path names }

/-- All names of all files. -/
def names (r : Report) : List String := ascending (r.files.flatMap Prod.snd)

end Report

def Report.document (r : Report) : Document :=
  .table [("root", .text r.root), ("files_scanned", .number r.scanned),
    ("files", .table (r.files.map fun (path, names) => (path, .texts names))),
    ("env_vars", .texts r.names), ("errors", .texts r.errors)]

end EnvKeeper
