import EnvKeeper.Proofs.Glob.Flaw
import EnvKeeper.Proofs.Store.Creation
import EnvKeeper.Proofs.Sync.Foretold

/-! When a scan or a sync fails. Whatever else goes wrong is told in the result; only a text that is no
pattern ends the run, and by then at most the store was made. -/

namespace EnvKeeper

namespace Store

variable {s : Store} {w : Desk}

theorem prepare_whole (ht : w.disk.IsTree) (hdown : s.path.GoesDown) (hnul : s.path.hasNul = false)
    (dryRun : Bool) :
    ∃ r w₁, (s.prepare dryRun).out w = (.ok r, w₁) ∧ (w₁.disk = w.disk ∨
      dryRun = false ∧ w.disk.isFile s.path = false ∧
        ∃ l, w.disk.Creates w₁.disk s.path l (Utf8.encode header)) := by
  cases dryRun with
  | true => exact ⟨_, w, s.out_prepare_dry w, .inl rfl⟩
  | false =>
    obtain ⟨hres, hdisk⟩ := s.out_prepare w
    have hensured := s.ensure_ensured w
    generalize s.ensure.out w = out at hres hdisk hensured
    obtain ⟨r, w'⟩ := out
    simp only at hres hdisk hensured
    rw [← hdisk] at hensured
    cases r with
    | ok found =>
      refine ⟨_, _, Prod.ext hres rfl, ?_⟩
      cases found with
      | true => exact .inl (Ensured.of_true hensured)
      | false =>
        refine .inr ⟨rfl, ?_, Ensured.of_false ht hdown hnul hensured⟩
        rw [Bool.eq_false_iff, Ne, Disk.isFile_iff, ← hensured.ok_true_iff]
        nofun
    | error x =>
      obtain ⟨hsame, -, cause, path, rfl⟩ := Ensured.of_error ht hdown hnul hensured
      exact ⟨_, _, Prod.ext hres rfl, .inl hsame⟩

end Store

/-- A scan or a sync fails for the first text that is no pattern, and for nothing else that is on the
disk or in the request. That failure is the same on every disk. A sync has then made its store with the
directories on the way to it, if that was missing and the run is not dry, and has changed nothing else. -/
theorem fails_by_flaw_only {q : SyncRequest} {d : Disk} (ht : d.IsTree)
    (hpatterns : ∀ t ∈ q.selection.patterns,
      t = "" ∨ t.toList.head? = some '/' ∨ Pattern.HasPart t)
    (hdown : q.target.path.GoesDown) (hnul : q.target.path.hasNul = false) :
    ((∀ t ∈ q.selection.patternsUsed, ∀ e, ¬ Pattern.Flawed t e) ∧
      (∀ d' : Disk, ∃ r j, (scan q.root q.selection).on d' = (.ok r, ⟨d', j⟩)) ∧
      ∃ o w, (sync q).on d = (.ok o, w)) ∨
    ∃ before t after e, q.selection.patternsUsed = before ++ t :: after ∧
      (∀ u ∈ before, ∀ e', ¬ Pattern.Flawed u e') ∧ Pattern.Flawed t e ∧
      (∀ d' : Disk, (scan q.root q.selection).on d' = (.error (.pattern e), { disk := d' })) ∧
      ∃ w, (sync q).on d = (.error (.pattern e), w) ∧
        (w.disk = d ∨ q.dryRun = false ∧ d.isFile q.target.path = false ∧
          ∃ l, d.Creates w.disk q.target.path l (Utf8.encode Store.header)) := by
  have hused := Pattern.hasPart_used hpatterns
  obtain ⟨r, w₁, hprep, hdisk⟩ :=
    Store.prepare_whole (s := q.target) (w := { disk := d }) ht hdown hnul q.dryRun
  rcases exists_first (fun t => ∃ e, Pattern.Flawed t e) q.selection.patternsUsed with
    hnone | ⟨before, t, after, hs, hbefore, e, hflawed⟩
  · have hvalid (t) (ht : t ∈ q.selection.patternsUsed) : Pattern.IsValid t :=
      Pattern.isValid_of_not_flawed (hused t ht) fun e he => hnone t ht ⟨e, he⟩
    refine .inl ⟨fun t ht e he => hnone t ht ⟨e, he⟩, fun d' => ?_, ?_⟩
    · obtain ⟨files, hfiles⟩ := Disk.candidates_of_sound hvalid d' q.root
      obtain ⟨j, hscan⟩ := out_scan_ok hfiles []
      exact ⟨_, j, hscan⟩
    · obtain ⟨files, hfiles⟩ := Disk.candidates_of_sound hvalid w₁.disk q.root
      obtain ⟨o, w, hsync, -⟩ := sync_ends hprep hfiles (.inr hnul)
      exact ⟨o, w, hsync⟩
  · have hmem (u) (hu : u ∈ before) : u ∈ q.selection.patternsUsed := by
      rw [hs]
      exact List.mem_append_left _ hu
    have hvalid (u) (hu : u ∈ before) : Pattern.IsValid u :=
      Pattern.isValid_of_not_flawed (hused u (hmem u hu)) fun e he => hbefore u hu ⟨e, he⟩
    have hfail (d' : Disk) := Disk.candidates_of_flawed hs hvalid hflawed d' q.root
    obtain ⟨j, hsync⟩ := out_sync_error hprep (hfail w₁.disk)
    refine .inr ⟨before, t, after, e, hs, fun u hu e' he => hbefore u hu ⟨e', he⟩, hflawed,
      fun d' => out_scan_error (hfail d') [], _, hsync, hdisk⟩

theorem fails_by_flaw_only_made :
    let d : Disk := ⟨[(["c.js"], .file [0xFF]), (["l"], .link "l")], []⟩
    let p : Path := ⟨.relative, ["a", ".env"]⟩
    let q : SyncRequest :=
      { root := ⟨.relative, []⟩, store := some p, selection := { patterns := ["*.js", "x/b**", "/"] } }
    d.IsTree ∧
    (∀ d' : Disk, (scan q.root q.selection).on d' =
      (.error (.pattern .starsInName), { disk := d' })) ∧
    ∃ w, (sync q).on d = (.error (.pattern .starsInName), w) ∧
      ∃ l, d.Creates w.disk p l (Utf8.encode Store.header) := by
  -- a store is made in a directory that was missing, and then the second pattern ends the sync
  intro d p q
  have hd : d.IsTree := (Disk.isProper_of_keys (by decide) (by decide)).toIsTree
  have hdown : p.GoesDown := by
    unfold Path.GoesDown
    decide
  have hrun : ((sync q).on d).1 = .error (.pattern .starsInName) := by decide
  have hmade : ((sync q).on d).2.disk.isFile p = true := by decide
  rcases fails_by_flaw_only (q := q) hd (by decide) hdown (by decide) with
    ⟨-, -, o, w, hsync⟩ | ⟨before, t, after, e, -, -, -, hscan, w, hsync, hdisk⟩
  · rw [hsync] at hrun
    cases hrun
  · rw [hsync] at hrun hmade
    cases hrun
    refine ⟨hd, hscan, w, hsync, ?_⟩
    rcases hdisk with hsame | ⟨-, -, hcreates⟩
    · have hmade : w.disk.isFile p = true := hmade
      rw [hsame] at hmade
      exact absurd hmade (by decide)
    · exact hcreates

end EnvKeeper
