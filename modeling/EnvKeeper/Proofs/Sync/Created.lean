import EnvKeeper.Proofs.Disk.Proper
import EnvKeeper.Proofs.Store.Creation
import EnvKeeper.Proofs.Store.Ending
import EnvKeeper.Proofs.Sync.Outcome

/-! The store is made with all that it needs, or nothing is. A sync whose store could not be made goes
on with the disk it was given and leaves it so: what cannot be made cannot be added to either. -/

namespace EnvKeeper

theorem sync_of_refused {q : SyncRequest} {o : SyncOutcome} {w w₀ w' : Desk} {reason : String}
    {r : Except Failure Bool} (hwet : q.dryRun = false) (hensure : q.target.ensure.out w = (r, w₀))
    (hrefused : ∀ x, r = .error x →
      w₀.disk = w.disk ∧ (w.disk.resolve q.target.path).place? = none)
    (h : (sync q).out w = (.ok o, w')) (ho : o.createError = some reason) :
    (∃ x, r = .error x ∧ reason = x.message) ∧ o.created = false ∧ o.update.written = false ∧
      w'.disk = w.disk ∧ (o.update.error ≠ none ↔ o.update.added ≠ []) := by
  obtain ⟨w₁, _, hprep, -, -, hrec⟩ := sync_parts h
  rw [hwet] at hprep hrec
  obtain ⟨hout, hdisk⟩ := q.target.out_prepare w
  rw [hprep, hensure] at hout hdisk
  rw [ho] at hout
  obtain ⟨hcreated, x, hx, hreason⟩ := Store.preparation_eq_some hout.symm
  obtain ⟨hsame, hplace⟩ := hrefused x hx
  rw [hdisk.trans hsame] at hrec
  exact ⟨⟨x, hx, hreason⟩, hcreated, hrec.of_place hplace⟩

/-- To make a store is all or nothing. A file that is there already is left alone. A store that is made
holds the header, and all else that is new are the directories on the way to it that were missing. If
it cannot be made then nothing has changed, and nothing changes in the rest of a sync. -/
theorem ensure_whole {s : Store} {d : Disk} (ht : d.IsTree) (hplain : s.path.IsPlain)
    (hup : ".." ∉ s.path.names) (hnul : s.path.hasNul = false) :
    ∃ r w, s.ensure.on d = (r, w) ∧
      (r = .ok true ↔ ∃ l b, d.resolve s.path = .file l b) ∧
      (r = .ok true → w.disk = d) ∧
      (r = .ok false → ∃ l, d.Creates w.disk s.path l (Utf8.encode Store.header)) ∧
      (∀ x, r = .error x → (∃ cause path, x = .disk (.refused cause path)) ∧ w.disk = d) ∧
      ∀ q o w' reason, q.target = s → q.dryRun = false → (sync q).on d = (.ok o, w') →
        o.createError = some reason →
        (∃ x, r = .error x ∧ reason = x.message) ∧ o.created = false ∧ o.update.written = false ∧
          w'.disk = d ∧ (o.update.error ≠ none ↔ o.update.added ≠ []) := by
  have hdown : s.path.GoesDown := fun n hn => ⟨hplain n hn, fun he => hup (he ▸ hn)⟩
  have hensured := s.ensure_ensured { disk := d }
  generalize hout : s.ensure.out { disk := d } = out at hensured
  obtain ⟨r, w⟩ := out
  simp only at hensured
  have hrefused (x : Failure) (hx : r = .error x) :
      w.disk = d ∧ (d.resolve s.path).place? = none ∧ ∃ cause path, x = .disk (.refused cause path) :=
    Store.Ensured.of_error ht hdown hnul (hx ▸ hensured)
  refine ⟨r, w, hout, hensured.ok_true_iff, fun hr => ?_, fun hr => ?_, fun x hx => ?_, ?_⟩
  · exact Store.Ensured.of_true (hr ▸ hensured)
  · exact Store.Ensured.of_false ht hdown hnul (hr ▸ hensured)
  · obtain ⟨hdisk, -, hcause⟩ := hrefused x hx
    exact ⟨hcause, hdisk⟩
  · rintro q o w' reason rfl hwet hsync ho
    refine sync_of_refused hwet hout (fun x hx => ?_) hsync ho
    obtain ⟨hdisk, hplace, -⟩ := hrefused x hx
    exact ⟨hdisk, hplace⟩

theorem ensure_whole_below :
    let d : Disk := ⟨[(["a"], .file []), (["b.js"], .file (Utf8.encode "env.A".toList)),
      (["l"], .link "x"), (["x"], .directory)], []⟩
    let p : Path := ⟨.relative, ["a", "b", ".env"]⟩
    let p' : Path := ⟨.relative, ["l", "b", ".env"]⟩
    d.IsTree ∧
    (∃ x w, (Store.mk p).ensure.on d = (.error x, w) ∧ w.disk = d) ∧
    (∃ o w, (sync { root := ⟨.relative, []⟩, store := some p }).on d = (.ok o, w) ∧
      o.createError ≠ none ∧ o.update.added = ["A"] ∧ o.update.error ≠ none ∧ w.disk = d) ∧
    ∃ w, (Store.mk p').ensure.on d = (.ok false, w) ∧
      d.Creates w.disk p' ["x", "b", ".env"] (Utf8.encode Store.header) := by
  -- Below a file no store can be made. Below a link to a directory one can, with a directory of
  -- its own.
  intro d p p'
  have hd : d.IsTree := (Disk.isProper_of_keys (by decide) (by decide)).toIsTree
  have hplain : p.IsPlain ∧ p'.IsPlain := by
    unfold Path.IsPlain
    decide
  have hblocked : ((Store.mk p).ensure.on d).1.toBool = false := by decide
  have hsync : (((sync { root := ⟨.relative, []⟩, store := some p }).on d).1.map fun o =>
      (o.createError.isSome, o.update.added)) = .ok (true, ["A"]) := by decide +kernel
  have hmade : ((Store.mk p').ensure.on d).1 = .ok false := by decide
  have hresolve : ((Store.mk p').ensure.on d).2.disk.resolve p' =
      .file ["x", "b", ".env"] (Utf8.encode Store.header) := by decide
  obtain ⟨r, w, hrun, -, -, -, herror, hrest⟩ :=
    ensure_whole (s := ⟨p⟩) hd hplain.1 (by decide) (by decide)
  obtain ⟨r', w', hrun', -, -, hfalse, -⟩ :=
    ensure_whole (s := ⟨p'⟩) hd hplain.2 (by decide) (by decide)
  refine ⟨hd, ?_, ?_, ?_⟩
  · rw [hrun] at hblocked
    cases r with
    | ok found => cases hblocked
    | error x => exact ⟨x, w, hrun, (herror x rfl).2⟩
  · generalize hout : (sync { root := ⟨.relative, []⟩, store := some p }).on d = out at hsync
    obtain ⟨e | o, w₁⟩ := out
    · cases hsync
    · obtain ⟨hsome, hadded⟩ := Prod.ext_iff.1 (Except.ok.inj hsync)
      obtain ⟨reason, hreason⟩ := Option.isSome_iff_exists.1 hsome
      obtain ⟨-, -, -, hdisk, hiff⟩ := hrest _ o w₁ reason rfl rfl hout hreason
      have hne : o.update.added ≠ [] := by
        rw [show o.update.added = ["A"] from hadded]
        nofun
      exact ⟨o, w₁, rfl, by rw [hreason]; nofun, hadded, hiff.2 hne, hdisk⟩
  · rw [hrun'] at hmade hresolve
    obtain ⟨l, hcreates⟩ := hfalse hmade
    have hfile := hcreates.file
    rw [hresolve] at hfile
    cases hfile
    exact ⟨w', hrun'.trans (Prod.ext hmade rfl), hcreates⟩

end EnvKeeper
