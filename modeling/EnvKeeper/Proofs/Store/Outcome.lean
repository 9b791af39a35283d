import EnvKeeper.Proofs.Disk.Leads
import EnvKeeper.Proofs.Run
import EnvKeeper.Store

/-! How each request to a store ends, and what it leaves on the disk: one case for each way through
the request, with the checks that lead there. -/

namespace EnvKeeper.Store

variable (s : Store)

theorem isThere_of_resolve {d : Disk} {l : Location} {b : List UInt8}
    (h : d.resolve s.path = .file l b) : s.isThere d = true :=
  Disk.isFile_iff.2 ⟨l, b, h⟩

theorem out_load (w : Desk) :
    s.load.out w =
      (.ok (s.entries w.disk),
        { w with journal := w.journal ++ (s.notices w.disk).map .notice }) := rfl

theorem quiet_load : Run.Quiet s.load := fun _ => rfl

theorem steady_load : Run.Steady s.load := by
  unfold load
  exact Run.steady_disk.bind fun _ => (Run.steady_sayAll _).bind fun _ => Run.steady_pure _

/-- The names that count as declared. -/
def declared (d : Disk) (known : Option (List String)) : List String :=
  known.getD (s.entries d).keys

theorem out_missing (found : List String) (known : Option (List String)) (w : Desk) :
    ∃ j, (s.missing found known).out w =
      (.ok (EnvKeeper.missing found (s.declared w.disk known)), ⟨w.disk, j⟩) := by
  cases known with
  | some names => exact ⟨_, rfl⟩
  | none => exact ⟨_, rfl⟩

theorem quiet_missing (found : List String) (known : Option (List String)) :
    Run.Quiet (s.missing found known) := by
  cases known with
  | some names => exact Run.quiet_pure _
  | none => exact s.quiet_load.bind fun _ => Run.quiet_pure _

theorem steady_missing (found : List String) (known : Option (List String)) :
    Run.Steady (s.missing found known) := by
  cases known with
  | some names => exact Run.steady_pure _
  | none => exact s.steady_load.bind fun _ => Run.steady_pure _

theorem steady_ensure : Run.Steady s.ensure := by
  unfold ensure
  refine Run.steady_disk.bind fun _ => ?_
  split
  · exact Run.steady_pure _
  refine (Run.steady_say _).bind fun _ => Run.steady_disk.bind fun _ => ?_
  refine (Run.steady_setDisk _).bind fun _ => ?_
  split
  · exact (Run.steady_throw _).bind fun _ => Run.steady_pure _
  · exact (Run.steady_throw _).bind fun _ => Run.steady_pure _
  · exact (Run.steady_setDisk _).bind fun _ => Run.steady_pure _

theorem steady_reconcile (found : List String) (known : Option (List String)) (dryRun : Bool) :
    Run.Steady (s.reconcile found known dryRun) := by
  refine (s.steady_missing found known).bind fun _ => ?_
  split
  · exact (Run.steady_say _).bind fun _ => Run.steady_pure _
  split
  · exact Run.steady_pure _
  refine Run.steady_disk.bind fun _ => ?_
  split
  · refine (Run.steady_setDisk _).bind fun _ => ?_
    exact (Run.steady_say _).bind fun _ => Run.steady_pure _
  · exact Run.steady_throw _
  · exact (Run.steady_say _).bind fun _ => Run.steady_pure _

inductive Ensured (d : Disk) : Except Failure Bool → Disk → Prop where
  | there (h : s.isThere d = true) : Ensured d (.ok true) d
  | blocked {e : DiskError} {d₁ : Disk} (h : s.isThere d = false)
    (hmade : d.makeDirectories s.path.parent = (.error e, d₁)) : Ensured d (.error (.disk e)) d₁
  | refused {e : DiskError} {d₁ : Disk} (h : s.isThere d = false)
    (hmade : d.makeDirectories s.path.parent = (.ok (), d₁))
    (hwrite : d₁.replace s.path (Utf8.encode header) = .error e) : Ensured d (.error (.disk e)) d₁
  | made {d₁ d₂ : Disk} (h : s.isThere d = false)
    (hmade : d.makeDirectories s.path.parent = (.ok (), d₁))
    (hwrite : d₁.replace s.path (Utf8.encode header) = .ok d₂) : Ensured d (.ok false) d₂

theorem ensure_ensured (w : Desk) :
    Ensured s w.disk (s.ensure.out w).1 (s.ensure.out w).2.disk := by
  unfold ensure
  simp only [Run.out_bind, Run.out_disk]
  cases h : s.isThere w.disk with
  | true => exact .there h
  | false =>
    simp only [Bool.false_eq_true, if_false, Run.out_bind, Run.out_note, Run.out_disk,
      Run.out_setDisk]
    cases hmade : w.disk.makeDirectories s.path.parent with
    | mk r d₁ =>
    cases r with
    | error e => exact .blocked h hmade
    | ok =>
      cases hwrite : d₁.replace s.path (Utf8.encode header) with
      | error e =>
        simp only
        exact .refused h hmade hwrite
      | ok d₂ =>
        simp only
        exact .made h hmade hwrite

inductive Reconciled (d : Disk) (found : List String) (known : Option (List String))
    (dryRun : Bool) : Except Failure Update → Disk → Prop where
  | nothing (h : EnvKeeper.missing found (s.declared d known) = []) :
    Reconciled d found known dryRun (.ok { added := [] }) d
  | dry {added : List String} (h : EnvKeeper.missing found (s.declared d known) = added)
    (hne : added ≠ []) (hdry : dryRun = true) : Reconciled d found known dryRun (.ok { added }) d
  | written {added : List String} {d' : Disk}
    (h : EnvKeeper.missing found (s.declared d known) = added) (hne : added ≠ [])
    (hdry : dryRun = false)
    (hwrite : d.append s.path (Utf8.encode (Additions.block (s.tail d) added)) = .ok d') :
    Reconciled d found known dryRun (.ok { added, written := true }) d'
  | failed {added : List String} {e : DiskError}
    (h : EnvKeeper.missing found (s.declared d known) = added) (hne : added ≠ [])
    (hdry : dryRun = false) (he : e ≠ .nul)
    (hwrite : d.append s.path (Utf8.encode (Additions.block (s.tail d) added)) = .error e) :
    Reconciled d found known dryRun (.ok { added, error := some e.message }) d
  | nul {added : List String} (h : EnvKeeper.missing found (s.declared d known) = added)
    (hne : added ≠ []) (hdry : dryRun = false)
    (hwrite : d.append s.path (Utf8.encode (Additions.block (s.tail d) added)) = .error .nul) :
    Reconciled d found known dryRun (.error (.disk .nul)) d

theorem reconcile_reconciled (found : List String) (known : Option (List String)) (dryRun : Bool)
    (w : Desk) :
    Reconciled s w.disk found known dryRun ((s.reconcile found known dryRun).out w).1
      ((s.reconcile found known dryRun).out w).2.disk := by
  obtain ⟨j, hj⟩ := s.out_missing found known w
  unfold reconcile
  rw [Run.out_bind_ok hj]
  generalize hadded : EnvKeeper.missing found (s.declared w.disk known) = added
  split
  · next hnone =>
    subst hnone
    exact .nothing hadded
  next hne =>
  split
  · next hdry => exact .dry hadded hne hdry
  next hdry =>
  have hdry : dryRun = false := by simpa using hdry
  rw [Run.out_bind_ok (Run.out_disk _)]
  simp only
  split
  · next d' hw => exact .written hadded hne hdry hw
  · next hw => exact .nul hadded hne hdry hw
  · next e he hw => exact .failed hadded hne hdry he hw

variable {s} {d d' : Disk} {found : List String} {known : Option (List String)} {dryRun : Bool}

theorem Reconciled.written_eq {u : Update} (h : Reconciled s d found known dryRun (.ok u) d')
    (hu : u.written = true) :
    u.added = EnvKeeper.missing found (s.declared d known) ∧ u.added ≠ [] ∧
      d.append s.path (Utf8.encode (Additions.block (s.tail d) u.added)) = .ok d' := by
  cases h with
  | nothing => cases hu
  | dry => cases hu
  | failed => cases hu
  | written h hne _ hwrite => exact ⟨h.symm, hne, hwrite⟩

theorem Reconciled.eq_of_nothing {u : Update} (h : Reconciled s d found known dryRun (.ok u) d')
    (hn : EnvKeeper.missing found (s.declared d known) = []) : u = { added := [] } ∧ d' = d := by
  cases h with
  | nothing => exact ⟨rfl, rfl⟩
  | dry h hne => exact absurd (h.symm.trans hn) hne
  | failed h hne => exact absurd (h.symm.trans hn) hne
  | written h hne => exact absurd (h.symm.trans hn) hne

theorem Reconciled.eq_of_append {u : Update} {added : List String} {d₁ : Disk}
    (h : Reconciled s d found known false (.ok u) d')
    (hadded : EnvKeeper.missing found (s.declared d known) = added) (hne : added ≠ [])
    (hwrite : d.append s.path (Utf8.encode (Additions.block (s.tail d) added)) = .ok d₁) :
    u = { added, written := true } ∧ d' = d₁ := by
  subst hadded
  cases h with
  | nothing h => exact absurd h hne
  | dry _ _ hdry => cases hdry
  | failed h _ _ _ herror =>
    subst h
    rw [hwrite] at herror
    cases herror
  | written h _ _ hok =>
    subst h
    rw [hwrite] at hok
    cases hok
    exact ⟨rfl, rfl⟩

theorem Reconciled.added_eq {u : Update} (h : Reconciled s d found known dryRun (.ok u) d') :
    u.added = EnvKeeper.missing found (s.declared d known) := by
  cases h with
  | nothing h => exact h.symm
  | dry h => exact h.symm
  | written h => exact h.symm
  | failed h => exact h.symm

theorem Reconciled.not_written {u : Update} (hdry : dryRun = true)
    (h : Reconciled s d found known dryRun (.ok u) d') : u.written = false := by
  cases h with
  | nothing => rfl
  | dry => rfl
  | failed => rfl
  | written _ _ hwet => rw [hdry] at hwet; cases hwet

theorem Reconciled.not_error_dry {e : Failure} (hdry : dryRun = true) :
    ¬ Reconciled s d found known dryRun (.error e) d' := by
  intro h
  cases h with
  | nul _ _ hwet => rw [hdry] at hwet; cases hwet

theorem Reconciled.error_eq {e : Failure} (h : Reconciled s d found known dryRun (.error e) d') :
    ∃ new, d.append s.path new = .error .nul := by
  cases h with
  | nul _ _ _ hwrite => exact ⟨_, hwrite⟩

end EnvKeeper.Store
