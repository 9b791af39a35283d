import EnvKeeper.Disk.Arrange
import EnvKeeper.Glob.Pattern
import EnvKeeper.Notice
import EnvKeeper.Text.Utf8

/-! Runs: work on a disk that keeps a journal and may fail. What it has changed and noted before a
failure stays. -/

namespace EnvKeeper

inductive Failure where
  | disk (e : DiskError)
  | undecodable (f : Utf8.Fault)
  | pattern (e : PatternError)
  deriving DecidableEq, Repr

def Failure.message : Failure → String
  | .disk e => e.message
  | .undecodable f => f.message
  | .pattern e => e.message

/-- What a run says: a notice, a line for the reader, or a warning to the reader. -/
inductive Event where
  | notice (n : Notice)
  | line (s : String)
  | warning (s : String)
  deriving DecidableEq, Repr

structure Desk where
  disk : Disk
  journal : List Event := []
  deriving DecidableEq, Repr

abbrev Run := ExceptT Failure (StateM Desk)

namespace Run

/-- Starts a run on `d` with an empty journal. -/
def on {α : Type} (r : Run α) (d : Disk) : Except Failure α × Desk :=
  Id.run (r.run.run { disk := d })

def disk : Run Disk := return (← get).disk

def setDisk (d : Disk) : Run Unit := modify fun s => { s with disk := d }

def say (e : Event) : Run Unit := modify fun s => { s with journal := s.journal ++ [e] }

def note (n : Notice) : Run Unit := say (.notice n)

def sayAll (es : List Event) : Run Unit := modify fun s => { s with journal := s.journal ++ es }

end Run
end EnvKeeper
