import EnvKeeper.Proofs.Command.Plain
import EnvKeeper.Proofs.Command.Silent
import EnvKeeper.Proofs.Sync.Foretold

/-! A check, a dry sync and a sync with the same options. They mean the same store; a check lists what
the dry sync would add, and a sync adds that if the directory of the store is there. -/

namespace EnvKeeper.Command

def checkLines (s : Store) (names missing : List String) : List Event :=
  if missing = [] then
    [.line (s.name ++ " declares all " ++ Nat.repr names.length ++ " referenced variables")]
  else
    .line (s.name ++ " is missing " ++ Nat.repr missing.length ++ " variables:")
    :: missing.map fun n => .line ("  - " ++ n)

def syncLines (o : SyncOutcome) (dryRun : Bool) : List Event :=
  .line "env-scan - Environment Variables Scanner"
  :: storeLine o dryRun
  :: .line ("Found " ++ Nat.repr o.loaded ++ " existing environment variables")
  :: reportLines o.report ++ .line "" :: updateLines o dryRun

section

variable {d : Disk} {root : Path} {s : Store} {selection : Selection}

theorem check_on {files : List (List String)} {missing : List String}
    (hfiles : d.candidates root selection = .ok files)
    (hmissing : EnvKeeper.missing (reportOf d root files).names (s.entries d).keys = missing) :
    ∃ w, (check root s selection).on d =
        (.ok (if missing = [] then .done else .incomplete), w) ∧
      outputOf w.journal = outputOf (checkLines s (reportOf d root files).names missing) := by
  obtain ⟨j, hscan⟩ := out_scan_ok hfiles []
  obtain ⟨j', hmiss⟩ := s.out_missing (reportOf d root files).names none ⟨d, j⟩
  have hquiet : outputOf j' = "" := by
    have hj := silent_scan root selection ⟨d, []⟩
    have hj' := s.silent_missing (reportOf d root files).names none ⟨d, j⟩
    rw [hscan] at hj
    rw [hmiss] at hj'
    exact hj'.trans hj
  rw [Store.declared, Option.getD_none, hmissing] at hmiss
  rw [Run.on_eq, check, Run.out_bind_ok hscan, Run.out_bind_ok hmiss, checkLines]
  by_cases hnone : missing = []
  · rw [if_pos hnone, if_pos hnone, if_pos (List.isEmpty_iff.2 hnone)]
    refine ⟨_, rfl, ?_⟩
    show outputOf (j' ++ _) = _
    rw [outputOf_append, hquiet, String.empty_append]
  · rw [if_neg hnone, if_neg hnone, if_neg (mt List.isEmpty_iff.1 hnone)]
    refine ⟨_, rfl, ?_⟩
    show outputOf (j' ++ _) = _
    rw [outputOf_append, hquiet, String.empty_append]

theorem check_on_error {e : PatternError} (he : d.candidates root selection = .error e) :
    ∃ w, (check root s selection).on d = (.error (.pattern e), w) := by
  rw [Run.on_eq, check, Run.out_bind_error (out_scan_error he [])]
  exact ⟨_, rfl⟩

theorem sync_behind (q : SyncRequest) (d : Disk) (j : List Event) :
    ∃ w, (sync q).out ⟨d, j⟩ = (((sync q).on d).1, w) ∧ outputOf w.journal = outputOf j := by
  have hres := (steady_sync q ⟨d, j⟩ ⟨d, []⟩ rfl).1
  refine ⟨((sync q).out ⟨d, j⟩).2, ?_, silent_sync q ⟨d, j⟩⟩
  rw [Run.on_eq, ← hres]

variable {q : SyncRequest} {w : Desk}

theorem update_on {o : SyncOutcome} (h : (sync q).on d = (.ok o, w)) :
    ∃ w', (update q).on d = (.ok o, w') ∧
      outputOf w'.journal = outputOf (syncLines o q.dryRun) := by
  have hsay := Run.out_say (.line "env-scan - Environment Variables Scanner") ⟨d, []⟩
  obtain ⟨w₁, hsync, hsaid⟩ :=
    sync_behind q d [.line "env-scan - Environment Variables Scanner"]
  rw [h] at hsync
  rw [Run.on_eq, update, Run.out_bind_ok hsay, List.nil_append, Run.out_bind_ok hsync]
  refine ⟨_, rfl, ?_⟩
  show outputOf (w₁.journal ++ _) = _
  rw [outputOf_append, hsaid, ← outputOf_append]
  rfl

theorem update_on_error {e : Failure} (h : (sync q).on d = (.error e, w)) :
    ∃ w', (update q).on d = (.error e, w') := by
  have hsay := Run.out_say (.line "env-scan - Environment Variables Scanner") ⟨d, []⟩
  obtain ⟨w₁, hsync, -⟩ := sync_behind q d [.line "env-scan - Environment Variables Scanner"]
  rw [h] at hsync
  rw [Run.on_eq, update, Run.out_bind_ok hsay, List.nil_append, Run.out_bind_error hsync]
  exact ⟨_, rfl⟩

end

section Execute

variable {d : Disk} {args : List String} {root option : Option Path} {verbose : Bool}
  {selection : Selection} (preset : Option String)

theorem execute_check
    (hread : Request.read args = .ok ⟨root, verbose, .check option selection⟩) :
    (execute args preset d).1 =
      let (ending, w) := (check (syncOf root option preset selection d.here true).root
        (syncOf root option preset selection d.here true).target selection).on d
      ⟨outputOf w.journal, errorsOf verbose w.journal, ending.mapError .failed⟩ := by
  rw [execute, hread]
  rfl

theorem execute_dry {named : Bool} {o : SyncOutcome} {w : Desk}
    (hread : Request.read args = .ok ⟨root, verbose, .update option selection true named⟩)
    (h : (sync (syncOf root option preset selection d.here true)).on d = (.ok o, w))
    (hw : o.update.written = false) :
    (execute args preset d).1.ending = .ok .done ∧
      (execute args preset d).1.output = outputOf (syncLines o true) := by
  obtain ⟨w', hupdate, hsaid⟩ := update_on h
  have hperform : (Request.perform ⟨root, verbose, .update option selection true named⟩ preset).on d =
      (.ok .done, w') := by
    rw [Run.on_eq, Request.perform, Run.out_bind_ok (Run.out_disk _)]
    simp only
    rw [Run.on_eq, syncOf] at hupdate
    rw [Run.out_bind_ok hupdate, hw, Bool.and_false]
    rfl
  rw [execute, hread]
  simp only [hperform]
  exact ⟨rfl, hsaid⟩

theorem execute_dry_error {named : Bool} {e : Failure} {w : Desk}
    (hread : Request.read args = .ok ⟨root, verbose, .update option selection true named⟩)
    (h : (sync (syncOf root option preset selection d.here true)).on d = (.error e, w)) :
    (execute args preset d).1.ending = .error (.failed e) := by
  obtain ⟨w', hupdate⟩ := update_on_error h
  have hperform : (Request.perform ⟨root, verbose, .update option selection true named⟩ preset).on d =
      (.error e, w') := by
    rw [Run.on_eq, Request.perform, Run.out_bind_ok (Run.out_disk _)]
    simp only
    rw [Run.on_eq, syncOf] at hupdate
    rw [Run.out_bind_error hupdate]
  rw [execute, hread]
  simp only [hperform]
  rfl

end Execute

/-- A check and a dry sync with the same options mean the same store and end in the same failure, or
the check lists what the dry sync would add and is done if that is nothing. If the path of the store
has no NUL and its directory is there, a sync agrees with them on what is added and reported. -/
theorem check_agrees {d : Disk} (hd : d.IsProper) {args args' : List String}
    {root option : Option Path} {selection : Selection} {verbose verbose' named : Bool}
    (preset : Option String)
    (hcheck : Request.read args = .ok ⟨root, verbose, .check option selection⟩)
    (hdry : Request.read args' = .ok ⟨root, verbose', .update option selection true named⟩) :
    let q := syncOf root option preset selection d.here
    let s := (q true).target
    (∃ e w, (sync (q true)).on d = (.error e, w) ∧
      (execute args preset d).1.ending = .error (.failed e) ∧
      (execute args' preset d).1.ending = .error (.failed e) ∧
      (s.path.hasNul = false → d.isDirectory s.path.parent = true →
        ∃ w', (sync (q false)).on d = (.error e, w'))) ∨
    ∃ o w, (sync (q true)).on d = (.ok o, w) ∧ o.store = s ∧
      o.update.added = missing o.report.names (s.entries d).keys ∧
      (execute args preset d).1.output =
        outputOf (checkLines s o.report.names o.update.added) ∧
      (execute args preset d).1.ending =
        .ok (if o.update.added = [] then .done else .incomplete) ∧
      (execute args preset d).1.exitCode = (if o.update.added = [] then 0 else 1) ∧
      (execute args' preset d).1.output = outputOf (syncLines o true) ∧
      (execute args' preset d).1.ending = .ok .done ∧
      (s.path.hasNul = false → d.isDirectory s.path.parent = true →
        ∃ o' w', (sync (q false)).on d = (.ok o', w') ∧ o'.update.added = o.update.added ∧
          o'.report.files = o.report.files ∧ o'.report.errors = o.report.errors) := by
  intro q s
  obtain ⟨hroot, hoption⟩ := Request.isPlain_of_check hcheck
  have hplain : s.path.IsPlain := isPlain_syncOf hd hroot hoption preset selection true
  have hprep := s.out_prepare_dry { disk := d }
  have hexecute := execute_check (d := d) preset hcheck
  have hforetold := sync_foretold (q := q true) (d := d) hplain
  cases hfiles : d.candidates (q true).root selection with
  | error e =>
    obtain ⟨j, hsync⟩ := out_sync_error (q := q true) hprep hfiles
    obtain ⟨w', hfailed⟩ := check_on_error (s := s) hfiles
    rw [hfailed] at hexecute
    refine .inl ⟨_, _, hsync, ?_, execute_dry_error preset hdry hsync, fun hnul hparent => ?_⟩
    · rw [hexecute]
      rfl
    rcases hforetold hnul hparent with ⟨e', w₁, w₂, h₁, h₂⟩ | ⟨o, w₁, -, -, h₁, -⟩
    · cases hsync.symm.trans h₁
      exact ⟨w₂, h₂⟩
    · cases hsync.symm.trans h₁
  | ok files =>
    obtain ⟨o, w, hsync, hstore, hreport, hadded⟩ :=
      sync_ends (q := q true) hprep hfiles (.inl rfl)
    have hwritten : o.update.written = false := by
      obtain ⟨_, _, _, -, -, -, hrec⟩ := sync_eq_ok hsync
      exact hrec.not_written rfl
    obtain ⟨w', hchecked, hsaid⟩ := check_on (s := s) hfiles (hreport ▸ hadded.symm)
    rw [hchecked] at hexecute
    obtain ⟨hending, houtput⟩ := execute_dry preset hdry hsync hwritten
    refine .inr ⟨o, w, hsync, hstore, hadded, ?_, ?_, ?_, houtput, hending, fun hnul hparent => ?_⟩
    · rw [hexecute, hreport]
      exact hsaid
    · rw [hexecute]
      rfl
    · rw [hexecute]
      by_cases hnone : o.update.added = []
      · rw [if_pos hnone, if_pos hnone]
        rfl
      · rw [if_neg hnone, if_neg hnone]
        rfl
    rcases hforetold hnul hparent with ⟨e, w₁, -, h₁, -⟩ | ⟨o₁, w₁, o', w₂, h₁, h₂, hsame⟩
    · cases hsync.symm.trans h₁
    · cases hsync.symm.trans h₁
      exact ⟨o', w₂, h₂, hsame⟩

theorem check_agrees_dangling :
    let d : Disk := ⟨[(["a.js"], .file (Utf8.encode "env.B env.A".toList)),
      (["b.js"], .link ".env")], []⟩
    d.IsProper ∧
    Request.read ["check"] = .ok ⟨none, false, .check none {}⟩ ∧
    Request.read ["sync", "--dry-run"] = .ok ⟨none, false, .update none {} true true⟩ ∧
    (execute ["check"] none d).1.output = "/.env is missing 2 variables:\n  - A\n  - B\n" ∧
    (execute ["check"] none d).1.exitCode = 1 ∧
    ∃ o w, (sync (syncOf none none none {} [] true)).on d = (.ok o, w) ∧ o.update.added = ["A", "B"] ∧
      ∃ o' w', (sync (syncOf none none none {} [] false)).on d = (.ok o', w') ∧
        o'.update.added = ["A", "B"] := by
  -- the store is missing, and a link that is scanned leads to its place
  intro d
  have hd : d.IsProper := Disk.isProper_of_keys (by decide) (by decide)
  have hcheck : Request.read ["check"] = .ok ⟨none, false, .check none {}⟩ := by decide +kernel
  have hdry : Request.read ["sync", "--dry-run"] =
      .ok ⟨none, false, .update none {} true true⟩ := by decide +kernel
  have hrun : (((sync (syncOf none none none {} [] true)).on d).1.map (·.update.added)) =
      .ok ["A", "B"] := by decide +kernel
  have houtput : (execute ["check"] none d).1.output =
      "/.env is missing 2 variables:\n  - A\n  - B\n" := by decide +kernel
  refine ⟨hd, hcheck, hdry, houtput, ?_⟩
  rcases check_agrees hd none hcheck hdry with ⟨e, w, hfail, -⟩ |
    ⟨o, w, hsync, -, -, -, -, hcode, -, -, hreal⟩
  · rw [hfail] at hrun
    cases hrun
  · rw [hsync] at hrun
    have hadded : o.update.added = ["A", "B"] := Except.ok.inj hrun
    obtain ⟨o', w', hsync', hadded', -⟩ := hreal (by decide) (by decide)
    rw [hadded] at hcode hadded'
    exact ⟨hcode, o, w, hsync, hadded, o', w', hsync', hadded'⟩

end EnvKeeper.Command
