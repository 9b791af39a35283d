import EnvKeeper.Scan
import EnvKeeper.Store

/-! A sync: the store is made if missing and read once, the files are scanned, and the names that
the store lacks are added. A dry run writes nothing. -/

namespace EnvKeeper

structure SyncRequest where
  root : Path
  store : Option Path := none
  selection : Selection := {}
  dryRun : Bool := false
  deriving DecidableEq, Repr

/-- Without a path of its own the store is the one in the root. -/
def SyncRequest.target (q : SyncRequest) : Store :=
  match q.store with
  | some p => ⟨p⟩
  | none => .inDirectory q.root

structure SyncOutcome where
  store : Store
  created : Bool
  createError : Option String
  loaded : Nat
  report : Report
  update : Update
  deriving DecidableEq, Repr

namespace Store

/-- Makes the store if it is missing. Says whether it was made, and what stood in the way. -/
def prepare (s : Store) (dryRun : Bool) : Run (Bool × Option String) := do
  if dryRun then return (!s.isThere (← Run.disk), none)
  try return (!(← s.ensure), none)
  catch
    | .disk (.refused cause path) =>
      let reason := (DiskError.refused cause path).message
      Run.note (.storeNotCreated s.name reason)
      return (false, some reason)
    | e => throw e

end Store

def sync (q : SyncRequest) : Run SyncOutcome := do
  let store := q.target
  let (created, createError) ← store.prepare q.dryRun
  let entries ← store.load
  Run.note (.entriesLoaded entries.length store.name)
  let report ← scan q.root q.selection
  let update ← store.reconcile report.names (some entries.keys) q.dryRun
  return { store, created, createError, loaded := entries.length, report, update }

end EnvKeeper
