import EnvKeeper.Proofs.Disk.Directories
import EnvKeeper.Proofs.Disk.Keeps
import EnvKeeper.Proofs.Glob.Rewrite
import EnvKeeper.Proofs.Scan.Grown
import EnvKeeper.Proofs.Store.Merge
import EnvKeeper.Proofs.Sync.Outcome

/-! A sync that is run again. The second scan finds the names that the first one found, though it may
read the store that the first one wrote; so a store that can be read lacks nothing then, and one
that cannot is given the same names once more. -/

namespace EnvKeeper

namespace Store

variable {s : Store} {d d₁ d' : Disk} {r : Except Failure Bool} {new : List UInt8}

/-- A store that can be added to once it was prepared is a file: the one that was there or one with
the header. -/
theorem Ensured.stored (h : s.Ensured d r d₁) (hnew : d₁.append s.path new = .ok d') :
    ∃ l b, d₁.resolve s.path = .file l b ∧
      (d.bytes? s.path = some b ∨ d.bytes? s.path = none ∧ b = Utf8.encode header) := by
  have hnone (h : s.isThere d = false) : d.bytes? s.path = none := by
    simpa [isThere, Disk.isFile] using h
  cases h with
  | there h =>
    obtain ⟨l, b, hl⟩ := Disk.isFile_iff.1 h
    exact ⟨l, b, hl, .inl (Disk.bytes?_eq_some.2 ⟨l, hl⟩)⟩
  | blocked h hmade =>
    have hplace := Disk.place?_of_parent (Disk.makeDirectories_error hmade)
    exact absurd hplace (Disk.place?_of_update hnew)
  | refused h hmade hwrite =>
    rw [Disk.append, Disk.update_error hwrite] at hnew
    cases hnew
  | made h hmade hwrite =>
    obtain ⟨m, b, -, -, -, hm⟩ := Disk.update_ok hwrite
    exact ⟨m, Utf8.encode header, hm, .inr ⟨hnone h, rfl⟩⟩

theorem out_prepare_there {w : Desk} (h : s.isThere w.disk = true) :
    (s.prepare false).out w = (.ok (false, none), w) := by
  have hensure : s.ensure.out w = (.ok true, w) := by
    unfold ensure
    rw [Run.out_bind_ok (Run.out_disk w), h]
    rfl
  unfold prepare
  simp only [Bool.false_eq_true, if_false, Run.out_tryCatch, Run.out_bind, hensure]
  rfl

end Store

theorem files_reportOf_block {d : Disk} {l : Location} {b : List UInt8} {names : List String}
    (hl : d.at? l = some (.file b)) (hn : ∀ n ∈ names, IsName n.toList) (tail : List UInt8)
    (root : Path) (files : List (List String)) :
    (reportOf (d.put l (.file (b ++ Utf8.encode (Additions.block tail names)))) root files).files =
      (reportOf d root files).files := by
  refine Report.files_ofScanned root ?_
  rw [List.map_map, List.map_map]
  refine List.map_congr_left fun q _ => ?_
  have hnames : (Scanned.namesOf (((d.put l (.file (b ++ Utf8.encode
      (Additions.block tail names)))).bytes? (root.append q)).getD [])).toOption =
        (Scanned.namesOf ((d.bytes? (root.append q)).getD [])).toOption := by
    unfold Disk.bytes?
    rw [Disk.resolve_put_file hl]
    cases hr : d.resolve (root.append q) with
    | file m old =>
      by_cases hm : l = m
      · subst hm
        have ho := Disk.at?_of_resolve hr
        rw [hl] at ho
        cases ho
        simp only [Target.rewrite, if_pos]
        exact Scanned.namesOf_block hn b tail
      · simp only [Target.rewrite, if_neg hm]
    | _ => rfl
  simp only [Function.comp_apply, Scanned.ofFile_eq, hnames]

theorem Report.names_congr {r r' : Report} (h : r.files = r'.files) : r.names = r'.names := by
  rw [Report.names, Report.names, h]

theorem Disk.append_ne_nul {d : Disk} {p : Path} {l : Location} {old : List UInt8}
    (h : d.resolve p = .file l old) (new : List UInt8) : d.append p new ≠ .error .nul := by
  unfold append update
  rcases d.destination_eq p with hd | hd
  · rw [hd]
    nofun
  · rw [hd, h]
    nofun

theorem Store.missing_again {d d' : Disk} {s : Store} {l : Location} {t : List Char}
    {found : List String} (hl : d.resolve s.path = .file l (Utf8.encode t))
    (hfound : ∀ n ∈ found, IsName n.toList)
    (hwrite : d.append s.path (Utf8.encode (Additions.block (s.tail d)
      (EnvKeeper.missing found (s.entries d).keys))) = .ok d') :
    EnvKeeper.missing found (s.entries d').keys = [] := by
  have hnew : ∀ n ∈ EnvKeeper.missing found (s.entries d).keys, IsName n.toList := fun n hn =>
    hfound n (mem_missing.1 hn).1
  have hbefore := Disk.bytes?_eq_some.2 ⟨l, hl⟩
  have hafter := Disk.bytes?_eq_some.2 ⟨l, (Disk.append_file hl hwrite).2⟩
  have hentries := entries_append _ hbefore hafter hnew (nodup_missing _ _)
    fun n hn => (mem_missing.1 hn).2
  refine List.eq_nil_iff_forall_not_mem.2 fun n hn => ?_
  obtain ⟨hmem, hnot⟩ := mem_missing.1 hn
  rw [hentries, Table.keys, List.map_append, List.map_map, List.mem_append, not_or] at hnot
  refine hnot.2 (List.mem_map.2 ⟨n, mem_missing.2 ⟨hmem, hnot.1⟩, rfl⟩)

/-- Behind a block another one needs no line end, and so one blank line. -/
theorem Store.block_again {d : Disk} {s : Store} {b : List UInt8} {names : List String}
    (tail : List UInt8) (hne : names ≠ [])
    (h : d.bytes? s.path = some (b ++ Utf8.encode (Additions.block tail names))) :
    Additions.block (s.tail d) names = '\n' :: Additions.lines names := by
  obtain ⟨x, hx⟩ := Additions.block_eq_append tail hne
  have hnl : Utf8.encode ['\n'] = [10] := by decide
  have htail : s.tail d = [10] := by
    rw [Store.tail, bytes_eq h, hx, Utf8.encode_append, hnl, ← List.append_assoc,
      List.getLast?_concat]
    rfl
  rw [Additions.block, if_neg (mt List.isEmpty_iff.1 hne), if_pos (.inr htail)]

section Again

variable {q : SyncRequest} {d : Disk} (hdry : q.dryRun = false)
include hdry

theorem sync_there {l : Location} {b : List UInt8} {files : List (List String)}
    (hl : d.resolve q.target.path = .file l b)
    (hfiles : d.candidates q.root q.selection = .ok files) :
    ∃ o w, (sync q).on d = (.ok o, w) ∧ o.report = reportOf d q.root files ∧
      Store.Reconciled q.target d o.report.names (some (q.target.entries d).keys) false
        (.ok o.update) w.disk := by
  have hprep := Store.out_prepare_there (w := { disk := d }) (q.target.isThere_of_resolve hl)
  rw [← hdry] at hprep
  obtain ⟨j, hsync⟩ := out_sync hprep hfiles
  have hrec := q.target.reconcile_reconciled (reportOf d q.root files).names
    (some (q.target.entries d).keys) q.dryRun ⟨d, j⟩
  rw [hdry] at hrec hsync
  rw [Run.on_eq, hsync]
  generalize (q.target.reconcile _ _ false).out ⟨d, j⟩ = out at hrec ⊢
  obtain ⟨e | u, w⟩ := out
  · obtain ⟨new, hnew⟩ := hrec.error_eq
    exact absurd hnew (Disk.append_ne_nul hl new)
  · exact ⟨_, w, rfl, rfl, hrec⟩

/-- What a sync that has written leaves: the store is a file, and the block stands at its end. -/
theorem sync_written {o : SyncOutcome} {w : Desk} (h : (sync q).on d = (.ok o, w))
    (hwritten : o.update.written = true) :
    ∃ d₁ l b files, d₁.resolve q.target.path = .file l b ∧
      (d.bytes? q.target.path = some b ∨
        d.bytes? q.target.path = none ∧ b = Utf8.encode Store.header) ∧
      d₁.candidates q.root q.selection = .ok files ∧ o.report = reportOf d₁ q.root files ∧
      o.update.added = missing o.report.names (q.target.entries d₁).keys ∧ o.update.added ≠ [] ∧
      d₁.append q.target.path
        (Utf8.encode (Additions.block (q.target.tail d₁) o.update.added)) = .ok w.disk := by
  obtain ⟨r, w₁, files, hprep, hfiles, hreport, hrec⟩ := sync_eq_ok h
  rw [hdry] at hprep hrec
  have hensured := q.target.ensure_ensured { disk := d }
  rw [← (q.target.out_prepare _).2, hprep] at hensured
  obtain ⟨hadded, hne, hwrite⟩ := hrec.written_eq hwritten
  obtain ⟨l, b, hl, hb⟩ := hensured.stored hwrite
  exact ⟨w₁.disk, l, b, files, hl, hb, hfiles, hreport, hadded, hne, hwrite⟩

/-- A sync that has written is a sync that has nothing to do when it is run again, if the store can
be read. If not, it is given the same lines once more. -/
theorem sync_converges {o : SyncOutcome} {w : Desk} (h : (sync q).on d = (.ok o, w))
    (hwritten : o.update.written = true) :
    ∃ o' w', (sync q).on w.disk = (.ok o', w') ∧ o'.report.names = o.report.names ∧
      ((∀ b, d.bytes? q.target.path = some b → ∃ t, b = Utf8.encode t) →
        o'.update = { added := [] } ∧ w'.disk = w.disk ∧
          ((q.target.missing o'.report.names none).on w.disk).1 = .ok []) ∧
      (∀ b, d.bytes? q.target.path = some b → (∀ t, b ≠ Utf8.encode t) →
        o.update.added ≠ [] ∧ o'.update = { added := o.update.added, written := true } ∧
          ∃ l b', w.disk.resolve q.target.path = .file l b' ∧ w'.disk = w.disk.put l
            (.file (b' ++ Utf8.encode ('\n' :: Additions.lines o.update.added)))) ∧
      Reference.names Store.header = [] ∧
      ∀ t tail, Reference.names (unifyLineEnds (t ++ Additions.block tail o.update.added)) =
        Reference.names (unifyLineEnds t) := by
  obtain ⟨d₁, l, b, files, hl, hb, hfiles, hreport, hadded, hne, hwrite⟩ :=
    sync_written hdry h hwritten
  have hfound : ∀ n ∈ o.report.names, IsName n.toList := by
    rw [hreport]
    exact fun n => Report.isName_of_mem_names
  have hnew : ∀ n ∈ o.update.added, IsName n.toList := by
    rw [hadded]
    exact fun n hn => hfound n (mem_missing.1 hn).1
  have hat := Disk.at?_of_resolve hl
  obtain ⟨hput, hl'⟩ := Disk.append_file hl hwrite
  have hfiles' : w.disk.candidates q.root q.selection = .ok files := by
    rw [hput, Disk.candidates_put_file hat, hfiles]
  obtain ⟨o', w', hsync, hreport', hrec⟩ := sync_there hdry hl' hfiles'
  have hnames : o'.report.names = o.report.names := by
    rw [hreport', hreport, hput]
    exact Report.names_congr (files_reportOf_block hat hnew _ _ _)
  refine ⟨o', w', hsync, hnames, fun htext => ?_, fun b₀ hb₀ hbad => ?_, by decide,
    fun t tail => Reference.names_block hnew t tail⟩
  · obtain ⟨t, rfl⟩ : ∃ t, b = Utf8.encode t := by
      rcases hb with hb | ⟨-, rfl⟩
      · exact htext b hb
      · exact ⟨_, rfl⟩
    rw [hadded] at hwrite
    have hnone := Store.missing_again hl hfound hwrite
    rw [← hnames] at hnone
    obtain ⟨hupdate, hdisk⟩ := hrec.eq_of_nothing hnone
    obtain ⟨j, hmissing⟩ := q.target.out_missing o'.report.names none { disk := w.disk }
    refine ⟨hupdate, hdisk, ?_⟩
    rw [Run.on_eq, hmissing]
    exact congrArg Except.ok hnone
  · obtain rfl : b = b₀ := by
      rcases hb with hb | ⟨hb, -⟩ <;> rw [hb] at hb₀ <;> cases hb₀
      rfl
    obtain ⟨f, hf⟩ : ∃ f, Utf8.decode b = .error f := by
      cases hd : Utf8.decode b with
      | error f => exact ⟨f, rfl⟩
      | ok t => exact absurd (Utf8.decode_eq_ok.1 hd) (hbad t)
    obtain ⟨f', hf'⟩ := Additions.decode_block_error hf (q.target.tail d₁) o.update.added
    have hafter := Disk.bytes?_eq_some.2 ⟨l, hl'⟩
    have hsame : missing o'.report.names (q.target.entries w.disk).keys = o.update.added := by
      rw [hadded, hnames, Store.entries_of_error hafter hf',
        Store.entries_of_error (Disk.bytes?_eq_some.2 ⟨l, hl⟩) hf]
    have hagain := Disk.append_again hl hwrite
      (Utf8.encode (Additions.block (q.target.tail w.disk) o.update.added))
    obtain ⟨hupdate, hdisk⟩ := hrec.eq_of_append hsame hne hagain
    rw [Store.block_again _ hne hafter] at hdisk
    exact ⟨hne, hupdate, l, _, hl', hdisk⟩

end Again

theorem sync_converges_fresh :
    ∃ o w, (sync { root := ⟨.relative, []⟩ }).on ⟨[(["a.js"], .file (Utf8.encode "env.A".toList))], []⟩ =
        (.ok o, w) ∧ o.update = { added := ["A"], written := true } ∧
      ∃ o' w', (sync { root := ⟨.relative, []⟩ }).on w.disk = (.ok o', w') ∧
        o'.update = { added := [] } ∧ w'.disk = w.disk := by
  -- of two syncs of a directory without a store the first makes it and the second changes
  -- nothing, though it reads it
  have hrun : (((sync { root := ⟨.relative, []⟩ }).on
      ⟨[(["a.js"], .file (Utf8.encode "env.A".toList))], []⟩).1.map (·.update)) =
        .ok { added := ["A"], written := true } := by decide +kernel
  rcases h : (sync { root := ⟨.relative, []⟩ }).on
    ⟨[(["a.js"], .file (Utf8.encode "env.A".toList))], []⟩ with ⟨e | o, w⟩
  · rw [h] at hrun
    cases hrun
  · rw [h] at hrun
    have hupdate : o.update = { added := ["A"], written := true } := Except.ok.inj hrun
    obtain ⟨o', w', hsync, -, htext, -⟩ := sync_converges rfl h (by rw [hupdate])
    have hnone : (Disk.mk [(["a.js"], .file (Utf8.encode "env.A".toList))] []).bytes?
        ⟨.relative, [".env"]⟩ = none := by decide
    obtain ⟨hnothing, hdisk, -⟩ := htext fun b hb => nomatch hnone.symm.trans hb
    exact ⟨o, w, rfl, hupdate, o', w', hsync, hnothing, hdisk⟩

end EnvKeeper
