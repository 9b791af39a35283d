import EnvKeeper.Proofs.Glob.Filled
import EnvKeeper.Proofs.Scan.Account
import EnvKeeper.Proofs.Scan.Grown
import EnvKeeper.Proofs.Store.Ending
import EnvKeeper.Proofs.Store.Merge

/-! A dry sync foretells what a sync adds and reports. If the store is made, the scan may find it, by
any number of paths, and some of them may have led nowhere before; but it finds no name in it. -/

namespace EnvKeeper

namespace Store

variable {s : Store} {d : Disk} {l : Location}

theorem entries_of_vacant (h : d.resolve s.path = .vacant l) : s.entries d = [] := by
  have hnone : d.bytes? s.path = none := by rw [Disk.bytes?, h]
  have hnil : Declarations.entries [] = [] := by
    rw [Declarations.entries_eq, Declarations.bindings_nil, List.foldl_nil]
  rw [entries, text, bytes, hnone]
  exact hnil

theorem entries_put_header (h : d.resolve s.path = .vacant l) :
    s.entries (d.put l (.file (Utf8.encode header))) = [] := by
  have hvacant := Disk.at?_of_vacant h
  have hput := Disk.at?_put d l (.file (Utf8.encode header)) (Disk.ne_nil_of_at?_none hvacant)
  have hr := Disk.resolve_vacant_keeps (Disk.keeps_put_new hvacant _) h (by rw [hput, if_pos rfl])
  rw [entries_of_encode (Disk.bytes?_eq_some.2 ⟨l, hr⟩)]
  decide +kernel

/-- Where the directory of a store is there, a store is prepared without fail. At most the header is
written, to a place that was vacant. -/
theorem prepare_in_directory {w : Desk} (hplain : s.path.IsPlain) (hnul : s.path.hasNul = false)
    (hparent : w.disk.isDirectory s.path.parent = true) :
    ∃ r w₁, (s.prepare false).out w = (.ok r, w₁) ∧ (w₁.disk = w.disk ∨
      ∃ l, w.disk.resolve s.path = .vacant l ∧
        w₁.disk = w.disk.put l (.file (Utf8.encode header))) := by
  have hthere := Disk.makeDirectories_there hplain.parent hparent
  obtain ⟨hres, hdisk⟩ := s.out_prepare w
  have hensured := s.ensure_ensured w
  generalize s.ensure.out w = out at hres hdisk hensured
  obtain ⟨r, w'⟩ := out
  have hout (r' : Bool × Option String) (hr : preparation r = .ok r') :
      ∃ w₁, (s.prepare false).out w = (.ok r', w₁) ∧ w₁.disk = w'.disk :=
    ⟨_, Prod.ext (hres.trans hr) rfl, hdisk⟩
  simp only at hensured
  generalize w'.disk = d' at hensured hout
  cases hensured with
  | there _ =>
    obtain ⟨w₁, hw, hd⟩ := hout _ rfl
    exact ⟨_, w₁, hw, .inl hd⟩
  | blocked _ hmade =>
    rw [hthere] at hmade
    cases hmade
  | @refused e _ _ hmade hwrite =>
    rw [hthere] at hmade
    cases hmade
    cases e with
    | nul => exact absurd hwrite (Disk.update_ne_nul hnul _)
    | refused cause path =>
      obtain ⟨w₁, hw, hd⟩ := hout _ rfl
      exact ⟨_, w₁, hw, .inl hd⟩
  | made habsent hmade hwrite =>
    rw [hthere] at hmade
    cases hmade
    obtain ⟨w₁, hw, hd⟩ := hout _ rfl
    refine ⟨_, w₁, hw, .inr ?_⟩
    rcases Disk.update_eq_ok hwrite with ⟨l, b, hl, -⟩ | ⟨l, hl, rfl⟩
    · rw [s.isThere_of_resolve (Disk.resolve_of_destination hl nofun)] at habsent
      cases habsent
    · exact ⟨l, Disk.resolve_of_destination hl nofun, hd⟩

end Store

theorem sync_ends {q : SyncRequest} {w w₁ : Desk} {r : Bool × Option String}
    {files : List (List String)} (hprep : (q.target.prepare q.dryRun).out w = (.ok r, w₁))
    (hfiles : w₁.disk.candidates q.root q.selection = .ok files)
    (hnul : q.dryRun = true ∨ q.target.path.hasNul = false) :
    ∃ o w', (sync q).out w = (.ok o, w') ∧ o.store = q.target ∧
      o.report = reportOf w₁.disk q.root files ∧
      o.update.added = missing o.report.names (q.target.entries w₁.disk).keys := by
  obtain ⟨j, hsync⟩ := out_sync hprep hfiles
  have hrec := q.target.reconcile_reconciled (reportOf w₁.disk q.root files).names
    (some (q.target.entries w₁.disk).keys) q.dryRun ⟨w₁.disk, j⟩
  rw [hsync]
  generalize (q.target.reconcile _ _ q.dryRun).out ⟨w₁.disk, j⟩ = out at hrec ⊢
  obtain ⟨e | u, w'⟩ := out
  · exact absurd hrec (hnul.elim Store.Reconciled.not_error_dry Store.Reconciled.not_error)
  · exact ⟨_, w', rfl, rfl, rfl, hrec.added_eq⟩

section Header

variable {α : Type} {d d' : Disk} {root : Path}

/-- Files that are new and without names do not count for what is told of files with names. -/
theorem filterMap_ofFile {f : Scanned → Option α} (hf : ∀ s, s.names = .ok [] → f s = none)
    {files : List (List String)}
    (hold : ∀ q, d.isFile (root.append q) = true →
      d'.bytes? (root.append q) = d.bytes? (root.append q))
    (hnew : ∀ q ∈ files, d.isFile (root.append q) = false →
      (Scanned.ofFile d' root q).names = .ok []) :
    (files.map (Scanned.ofFile d' root)).filterMap f =
      ((files.filter fun q => d.isFile (root.append q)).map (Scanned.ofFile d root)).filterMap f := by
  induction files with
  | nil => simp only [List.filter_nil, List.map_nil]
  | cons q files ih =>
    obtain ⟨hq, hnew⟩ := List.forall_mem_cons.1 hnew
    rw [List.map_cons, List.filterMap_cons, ih hnew, List.filter_cons]
    cases hfile : d.isFile (root.append q) with
    | false => simp only [hf _ (hq hfile), Bool.false_eq_true, if_false]
    | true =>
      have hsame : Scanned.ofFile d' root q = Scanned.ofFile d root q := by
        rw [Scanned.ofFile_eq, Scanned.ofFile_eq, hold q hfile]
      simp only [hsame, if_true, List.map_cons, List.filterMap_cons]

theorem namesOf_header : Scanned.namesOf (Utf8.encode Store.header) = .ok [] := by decide

variable {m : Location} {n : String} {sel : Selection} {files : List (List String)}

theorem reportOf_put_header (h : d.at? (m ++ [n]) = none) (hn : (n ≠ "" ∧ n ≠ ".") ∧ n ≠ "..")
    (hfiles : d.candidates root sel = .ok files)
    (hd' : d' = d.put (m ++ [n]) (.file (Utf8.encode Store.header))) :
    ∃ files', d'.candidates root sel = .ok files' ∧
      (reportOf d' root files').files = (reportOf d root files).files ∧
      (reportOf d' root files').errors = (reportOf d root files).errors := by
  subst hd'
  obtain ⟨files', hfiles', rfl⟩ := Disk.candidates_put_new h hn (Utf8.encode Store.header) hfiles
  have hnew (q) (hq : q ∈ files') (hfile : d.isFile (root.append q) = false) :
      (Scanned.ofFile (d.put (m ++ [n]) (.file (Utf8.encode Store.header))) root q).names =
        .ok [] := by
    have hfile' := Disk.isFile_of_candidates hfiles' q hq
    rw [Scanned.ofFile_eq, Disk.bytes?_put_new_of_not h _ hfile hfile']
    exact namesOf_header
  have hold (q) (hq : d.isFile (root.append q) = true) :=
    Disk.bytes?_put_new h (Utf8.encode Store.header) hq
  refine ⟨files', hfiles', ?_⟩
  simp only [reportOf, Report.ofScanned, Report.foldl_take]
  rw [filterMap_ofFile (f := Scanned.listed?) (fun s hs => by rw [Scanned.listed?, hs]; rfl)
      hold hnew,
    filterMap_ofFile (f := Scanned.error?) (fun s hs => by rw [Scanned.error?, hs]) hold hnew]
  exact ⟨rfl, rfl⟩

end Header

/-- Where the directory of the store is there, a dry sync and a sync end in the same failure, or they
agree on what is added and what is reported. -/
theorem sync_foretold {q : SyncRequest} {d : Disk} (hplain : q.target.path.IsPlain)
    (hnul : q.target.path.hasNul = false)
    (hparent : d.isDirectory q.target.path.parent = true) :
    (∃ e w w', (sync { q with dryRun := true }).on d = (.error e, w) ∧
      (sync { q with dryRun := false }).on d = (.error e, w')) ∨
    ∃ o w o' w', (sync { q with dryRun := true }).on d = (.ok o, w) ∧
      (sync { q with dryRun := false }).on d = (.ok o', w') ∧
      o'.update.added = o.update.added ∧ o'.report.files = o.report.files ∧
      o'.report.errors = o.report.errors := by
  obtain ⟨r, w₁, hprep, hdisk⟩ := q.target.prepare_in_directory (w := { disk := d })
    hplain hnul hparent
  have hdry := q.target.out_prepare_dry { disk := d }
  cases hfiles : d.candidates q.root q.selection with
  | error e =>
    obtain ⟨j, hout⟩ := out_sync_error (q := { q with dryRun := true }) hdry hfiles
    obtain ⟨j', hout'⟩ := out_sync_error (q := { q with dryRun := false }) hprep
      (Disk.candidates_error hfiles)
    exact .inl ⟨_, _, _, hout, hout'⟩
  | ok files =>
    have hsame : ∃ files', w₁.disk.candidates q.root q.selection = .ok files' ∧
        (reportOf w₁.disk q.root files').files = (reportOf d q.root files).files ∧
        (reportOf w₁.disk q.root files').errors = (reportOf d q.root files).errors ∧
        q.target.entries w₁.disk = q.target.entries d := by
      rcases hdisk with hdisk | ⟨l, hl, hdisk⟩
      · rw [hdisk]
        exact ⟨files, hfiles, rfl, rfl, rfl⟩
      · obtain ⟨m, n, rfl, hn⟩ := Disk.resolve_vacant_name hl
        obtain ⟨files', hfiles', hreported, herrors⟩ :=
          reportOf_put_header (Disk.at?_of_vacant hl) hn hfiles hdisk
        refine ⟨files', hfiles', hreported, herrors, ?_⟩
        rw [hdisk, Store.entries_of_vacant hl]
        exact Store.entries_put_header hl
    obtain ⟨files', hfiles', hreported, herrors, hentries⟩ := hsame
    obtain ⟨o, w, hout, -, hreport, hadded⟩ :=
      sync_ends (q := { q with dryRun := true }) hdry hfiles (.inl rfl)
    obtain ⟨o', w', hout', -, hreport', hadded'⟩ :=
      sync_ends (q := { q with dryRun := false }) hprep hfiles' (.inr hnul)
    rw [← hreport, ← hreport'] at hreported herrors
    refine .inr ⟨o, w, o', w', hout, hout', ?_, hreported, herrors⟩
    rw [hadded, hadded', Report.names, Report.names, hreported]
    exact congrArg (fun t => missing _ (Table.keys t)) hentries

end EnvKeeper
