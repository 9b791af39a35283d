import EnvKeeper.Command.Reply
import EnvKeeper.Proofs.Calls.Writes
import EnvKeeper.Proofs.Sync.Outcome

/-! Calls of all kinds, in any order and with any arguments, and what each of them writes. A call that
fails has done what it did before. -/

namespace EnvKeeper

namespace Command.Request

def output? (r : Request) : Option Path :=
  match r.task with
  | .scan _ _ output => output
  | _ => none

def sync? (r : Request) (preset : Option String) (here : Location) : Option SyncRequest :=
  match r.task with
  | .update option selection dryRun _ =>
    some { root := r.root.getD ⟨.root, here⟩, store := chosenStore option preset, selection, dryRun }
  | _ => none

end Command.Request

/-- A command line is one that saves no report. -/
inductive Call where
  | isThere (s : Store)
  | text (s : Store)
  | tail (s : Store)
  | candidates (root : Path) (sel : Selection)
  | load (s : Store)
  | missing (s : Store) (found : List String) (known : Option (List String))
  | ensure (s : Store)
  | reconcile (s : Store) (found : List String) (known : Option (List String)) (dryRun : Bool)
  | scan (root : Path) (sel : Selection)
  | sync (q : SyncRequest)
  | command (args : List String) (preset : Option String)
    (h : ∀ r, Command.Request.read args = .ok r → r.output? = none)

namespace SyncRequest

def writes (q : SyncRequest) (d : Disk) : List Write :=
  if q.dryRun then []
  else match (q.target.prepare false).on d with
    | (.error _, _) => [.make q.target]
    | (.ok _, w) =>
      match w.disk.candidates q.root q.selection with
      | .error _ => [.make q.target]
      | .ok files =>
        [.make q.target, .add q.target (reportOf w.disk q.root files).names
          (some (q.target.entries w.disk).keys)]

end SyncRequest

namespace Call

/-- The disk after a call, whether it returned or failed. The first four are functions of the disk. -/
def on : Call → Disk → Disk
  | .isThere _, d => d
  | .text _, d => d
  | .tail _, d => d
  | .candidates _ _, d => d
  | .load s, d => (s.load.on d).2.disk
  | .missing s found known, d => ((s.missing found known).on d).2.disk
  | .ensure s, d => (s.ensure.on d).2.disk
  | .reconcile s found known dryRun, d => ((s.reconcile found known dryRun).on d).2.disk
  | .scan root sel, d => ((EnvKeeper.scan root sel).on d).2.disk
  | .sync q, d => ((EnvKeeper.sync q).on d).2.disk
  | .command args preset _, d => (Command.execute args preset d).2

def sync? : Call → Location → Option SyncRequest
  | .sync q, _ => some q
  | .command args preset _, here =>
    match Command.Request.read args with
    | .ok r => r.sync? preset here
    | .error _ => none
  | _, _ => none

def writes : Call → Disk → List Write
  | .ensure s, _ => [.make s]
  | .reconcile s found known dryRun, _ => if dryRun then [] else [.add s found known]
  | c, d => ((c.sync? d.here).map (·.writes d)).getD []

/-- A call that is not made to write: it makes no store, and an update or a sync is a dry run. -/
def IsDry : Call → Prop
  | .ensure _ => False
  | .reconcile _ _ _ dryRun => dryRun = true
  | c => ∀ here q, c.sync? here = some q → q.dryRun = true

def Clobbers (c : Call) (d : Disk) : Prop := ∃ s, .make s ∈ c.writes d ∧ s.Clobbers d

end Call

theorem Store.quiet_reconcile_dry (s : Store) (found : List String) (known : Option (List String)) :
    Run.Quiet (s.reconcile found known true) := by
  refine (s.quiet_missing found known).bind fun _ => ?_
  split
  · exact (Run.quiet_say _).bind fun _ => Run.quiet_pure _
  · exact Run.quiet_pure _

theorem quiet_sync_dry {q : SyncRequest} (h : q.dryRun = true) : Run.Quiet (sync q) := by
  unfold sync
  rw [h]
  refine Run.Quiet.bind (fun _ => rfl) fun _ => q.target.quiet_load.bind fun _ => ?_
  refine (Run.quiet_say _).bind fun _ => (quiet_scan _ _).bind fun _ => ?_
  exact (q.target.quiet_reconcile_dry _ _).bind fun _ => Run.quiet_pure _

theorem disk_sync (q : SyncRequest) (d : Disk) :
    ((sync q).on d).2.disk = Writes.run (q.writes d) d := by
  cases hdry : q.dryRun with
  | true =>
    rw [SyncRequest.writes, if_pos hdry]
    exact quiet_sync_dry hdry _
  | false =>
    have hdisk := (q.target.out_prepare { disk := d }).2
    rw [SyncRequest.writes, if_neg (by simp [hdry]), Run.on_eq, Run.on_eq]
    cases hprep : (q.target.prepare false).out { disk := d } with
    | mk r w =>
    rw [hprep] at hdisk
    have hmake : (Write.make q.target).on d = w.disk := hdisk.symm
    rw [← hdry] at hprep
    cases r with
    | error e =>
      simp only [Writes.run, hmake]
      rw [sync, Run.out_bind_error hprep]
    | ok r =>
      cases hfiles : w.disk.candidates q.root q.selection with
      | error e =>
        obtain ⟨j, hsync⟩ := out_sync_error hprep hfiles
        simp only [hfiles, Writes.run, hmake, hsync]
      | ok files =>
        obtain ⟨j, hsync⟩ := out_sync hprep hfiles
        have hsteady := (q.target.steady_reconcile (reportOf w.disk q.root files).names
          (some (q.target.entries w.disk).keys) false ⟨w.disk, j⟩ { disk := w.disk } rfl).2
        simp only [hfiles, Writes.run, hmake]
        rw [hsync, hdry, Write.on, Run.on_eq, ← hsteady]
        generalize (q.target.reconcile _ _ false).out ⟨w.disk, j⟩ = out
        obtain ⟨e | u, w'⟩ := out <;> rfl

namespace Command

theorem disk_update (q : SyncRequest) (w : Desk) :
    ((update q).out w).2.disk = ((sync q).on w.disk).2.disk := by
  have hsteady (j : List Event) := (steady_sync q ⟨w.disk, j⟩ ⟨w.disk, []⟩ rfl).2
  rw [update, Run.out_bind_ok (Run.out_say _ w),
    Run.disk_bind_quiet fun _ => (Run.quiet_sayAll _).bind fun _ => Run.quiet_pure _]
  exact hsteady _

theorem quiet_check (root : Path) (s : Store) (sel : Selection) : Run.Quiet (check root s sel) := by
  refine (quiet_scan _ _).bind fun _ => (s.quiet_missing _ _).bind fun _ => ?_
  split
  · exact (Run.quiet_say _).bind fun _ => Run.quiet_pure _
  · exact (Run.quiet_sayAll _).bind fun _ => Run.quiet_pure _

theorem quiet_inspect (root : Path) (sel : Selection) (format : Format) :
    Run.Quiet (inspect root sel format none) :=
  (quiet_scan _ _).bind fun _ => Run.quiet_sayAll _

theorem disk_perform {r : Request} (h : r.output? = none) (preset : Option String) (d : Disk) :
    ((r.perform preset).on d).2.disk =
      Writes.run (((r.sync? preset d.here).map (·.writes d)).getD []) d := by
  obtain ⟨root, verbose, task⟩ := r
  rw [Run.on_eq, Request.perform, Run.out_bind_ok (Run.out_disk _)]
  cases task with
  | update option selection dryRun named =>
    simp only [Request.sync?, Option.map_some, Option.getD_some]
    rw [Run.disk_bind_quiet, disk_update, disk_sync]
    intro o
    split
    · exact (Run.quiet_say _).bind fun _ => Run.quiet_pure _
    · exact Run.quiet_pure _
  | check option selection => exact quiet_check _ _ _ _
  | scan selection format output =>
    obtain rfl : output = none := h
    exact ((quiet_inspect _ _ _).bind fun _ => Run.quiet_pure _) _
  | help => rfl

theorem disk_execute {args : List String} (h : ∀ r, Request.read args = .ok r → r.output? = none)
    (preset : Option String) (d : Disk) :
    (execute args preset d).2 = Writes.run ((Call.command args preset h).writes d) d := by
  have hwrites : (Call.command args preset h).writes d =
    (((Call.command args preset h).sync? d.here).map (·.writes d)).getD [] := rfl
  rw [hwrites, Call.sync?, execute]
  cases hread : Request.read args with
  | error m => rfl
  | ok r => exact disk_perform (h r hread) preset d

end Command

namespace Call

theorem on_eq (c : Call) (d : Disk) : c.on d = Writes.run (c.writes d) d := by
  cases c with
  | isThere s => rfl
  | text s => rfl
  | tail s => rfl
  | candidates root sel => rfl
  | load s => rfl
  | missing s found known => exact s.quiet_missing found known _
  | ensure s => rfl
  | reconcile s found known dryRun =>
    cases dryRun with
    | true => exact s.quiet_reconcile_dry found known _
    | false => rfl
  | scan root sel => exact quiet_scan root sel _
  | sync q => exact disk_sync q d
  | command args preset h => exact Command.disk_execute h preset d

end Call
end EnvKeeper
