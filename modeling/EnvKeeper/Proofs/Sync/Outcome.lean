import EnvKeeper.Proofs.Store.Outcome
import EnvKeeper.Sync

/-! How a sync ends, part by part: the store is prepared, it is read, the files are scanned, and the
store is updated. Only the first and the last part write. -/

namespace EnvKeeper

namespace Store

variable (s : Store)

/-- Whether a store was made, and what stood in the way if that is no more than a refusal. -/
def preparation : Except Failure Bool → Except Failure (Bool × Option String)
  | .ok found => .ok (!found, none)
  | .error (.disk (.refused cause path)) =>
    .ok (false, some (DiskError.refused cause path).message)
  | .error e => .error e

/-- A reason is given where the store could not be made, and then it was not made. -/
theorem preparation_eq_some {r : Except Failure Bool} {created : Bool} {reason : String}
    (h : preparation r = .ok (created, some reason)) :
    created = false ∧ ∃ x, r = .error x ∧ reason = x.message := by
  match r, h with
  | .error (.disk (.refused cause path)), rfl => exact ⟨rfl, _, rfl, rfl⟩

theorem out_prepare_dry (w : Desk) :
    (s.prepare true).out w = (.ok (!s.isThere w.disk, none), w) := rfl

theorem out_prepare (w : Desk) :
    ((s.prepare false).out w).1 = preparation (s.ensure.out w).1 ∧
      ((s.prepare false).out w).2.disk = (s.ensure.out w).2.disk := by
  unfold prepare
  simp only [Bool.false_eq_true, if_false, Run.out_tryCatch, Run.out_bind]
  cases s.ensure.out w with
  | mk r w' =>
  cases r with
  | ok found => exact ⟨rfl, rfl⟩
  | error e =>
    cases e with
    | disk e => cases e <;> exact ⟨rfl, rfl⟩
    | undecodable => exact ⟨rfl, rfl⟩
    | pattern => exact ⟨rfl, rfl⟩

theorem steady_prepare (dryRun : Bool) : Run.Steady (s.prepare dryRun) := by
  intro w w' h
  cases dryRun with
  | true =>
    refine ⟨?_, h⟩
    rw [out_prepare_dry, out_prepare_dry, h]
  | false =>
    obtain ⟨hres, hdisk⟩ := s.steady_ensure w w' h
    rw [(s.out_prepare w).1, (s.out_prepare w).2, (s.out_prepare w').1, (s.out_prepare w').2]
    exact ⟨congrArg preparation hres, hdisk⟩

end Store

theorem quiet_scan (root : Path) (sel : Selection) : Run.Quiet (scan root sel) := by
  refine Run.quiet_disk.bind fun _ => ?_
  split
  · exact Run.quiet_throw _
  · refine (Run.quiet_say _).bind fun _ => ?_
    exact (Run.quiet_sayAll _).bind fun _ => Run.quiet_pure _

theorem steady_scan (root : Path) (sel : Selection) : Run.Steady (scan root sel) := by
  refine Run.steady_disk.bind fun _ => ?_
  split
  · exact Run.steady_throw _
  · refine (Run.steady_say _).bind fun _ => ?_
    exact (Run.steady_sayAll _).bind fun _ => Run.steady_pure _

theorem steady_sync (q : SyncRequest) : Run.Steady (sync q) := by
  refine (q.target.steady_prepare _).bind fun _ => q.target.steady_load.bind fun _ => ?_
  refine (Run.steady_say _).bind fun _ => (steady_scan _ _).bind fun _ => ?_
  exact (q.target.steady_reconcile _ _ _).bind fun _ => Run.steady_pure _

def reportOf (d : Disk) (root : Path) (files : List (List String)) : Report :=
  Report.ofScanned root (files.map (Scanned.ofFile d root))

theorem out_scan_ok {root : Path} {sel : Selection} {d : Disk} {files : List (List String)}
    (h : d.candidates root sel = .ok files) (j : List Event) :
    ∃ j', (scan root sel).out ⟨d, j⟩ = (.ok (reportOf d root files), ⟨d, j'⟩) := by
  unfold scan
  rw [Run.out_bind_ok (Run.out_disk _)]
  simp only [h]
  exact ⟨_, rfl⟩

theorem out_scan_error {root : Path} {sel : Selection} {d : Disk} {e : PatternError}
    (h : d.candidates root sel = .error e) (j : List Event) :
    (scan root sel).out ⟨d, j⟩ = (.error (.pattern e), ⟨d, j⟩) := by
  unfold scan
  rw [Run.out_bind_ok (Run.out_disk _)]
  simp only [h]
  rfl

/-- From a store that is prepared and files that are found, a sync goes as its last update goes. -/
theorem out_sync {q : SyncRequest} {w w₁ : Desk} {r : Bool × Option String}
    {files : List (List String)} (hprep : (q.target.prepare q.dryRun).out w = (.ok r, w₁))
    (hfiles : w₁.disk.candidates q.root q.selection = .ok files) :
    ∃ j, (sync q).out w =
      match (q.target.reconcile (reportOf w₁.disk q.root files).names
        (some (q.target.entries w₁.disk).keys) q.dryRun).out ⟨w₁.disk, j⟩ with
      | (.ok u, w') => (.ok ⟨q.target, r.1, r.2, (q.target.entries w₁.disk).length,
          reportOf w₁.disk q.root files, u⟩, w')
      | (.error e, w') => (.error e, w') := by
  obtain ⟨j, hscan⟩ := out_scan_ok hfiles (w₁.journal ++
    (q.target.notices w₁.disk).map .notice ++
      [.notice (.entriesLoaded (q.target.entries w₁.disk).length q.target.name)])
  refine ⟨j, ?_⟩
  unfold sync
  rw [Run.out_bind_ok hprep]
  simp only
  rw [Run.out_bind_ok (q.target.out_load w₁), Run.out_bind_ok (Run.out_note _ _),
    Run.out_bind_ok hscan, Run.out_bind]
  rcases (q.target.reconcile _ _ _).out ⟨w₁.disk, j⟩ with ⟨e | u, w'⟩ <;> rfl

theorem out_sync_error {q : SyncRequest} {w w₁ : Desk} {r : Bool × Option String}
    {e : PatternError} (hprep : (q.target.prepare q.dryRun).out w = (.ok r, w₁))
    (he : w₁.disk.candidates q.root q.selection = .error e) :
    ∃ j, (sync q).out w = (.error (.pattern e), ⟨w₁.disk, j⟩) := by
  unfold sync
  rw [Run.out_bind_ok hprep]
  simp only
  rw [Run.out_bind_ok (q.target.out_load w₁), Run.out_bind_ok (Run.out_note _ _),
    Run.out_bind_error (out_scan_error he _)]
  exact ⟨_, rfl⟩

theorem sync_parts {q : SyncRequest} {w w' : Desk} {o : SyncOutcome}
    (h : (sync q).out w = (.ok o, w')) :
    ∃ w₁ files, (q.target.prepare q.dryRun).out w = (.ok (o.created, o.createError), w₁) ∧
      w₁.disk.candidates q.root q.selection = .ok files ∧
      o.report = reportOf w₁.disk q.root files ∧
      Store.Reconciled q.target w₁.disk o.report.names (some (q.target.entries w₁.disk).keys)
        q.dryRun (.ok o.update) w'.disk := by
  obtain ⟨r, w₁, hprep, -⟩ := Run.out_bind_eq_ok h
  cases hfiles : w₁.disk.candidates q.root q.selection with
  | error e =>
    obtain ⟨j, hfailed⟩ := out_sync_error hprep hfiles
    rw [h] at hfailed
    cases hfailed
  | ok files =>
    obtain ⟨j, hsync⟩ := out_sync hprep hfiles
    have hrec := q.target.reconcile_reconciled (reportOf w₁.disk q.root files).names
      (some (q.target.entries w₁.disk).keys) q.dryRun ⟨w₁.disk, j⟩
    rw [h] at hsync
    split at hsync
    · next u w₂ hu =>
      cases hsync
      rw [hu] at hrec
      exact ⟨w₁, files, hprep, hfiles, rfl, hrec⟩
    · cases hsync

theorem sync_eq_ok {q : SyncRequest} {w w' : Desk} {o : SyncOutcome}
    (h : (sync q).out w = (.ok o, w')) :
    ∃ r w₁ files, (q.target.prepare q.dryRun).out w = (.ok r, w₁) ∧
      w₁.disk.candidates q.root q.selection = .ok files ∧
      o.report = reportOf w₁.disk q.root files ∧
      Store.Reconciled q.target w₁.disk o.report.names (some (q.target.entries w₁.disk).keys)
        q.dryRun (.ok o.update) w'.disk := by
  obtain ⟨w₁, files, hparts⟩ := sync_parts h
  exact ⟨_, w₁, files, hparts⟩

end EnvKeeper
