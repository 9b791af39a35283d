import EnvKeeper.Proofs.Command.Silent
import EnvKeeper.Proofs.Disk.Keeps
import EnvKeeper.Proofs.Document.Json.RoundTrip
import EnvKeeper.Proofs.Document.Yaml.RoundTrip
import Mathlib.Data.List.Infix

/-! The report of a scan for other programs. It is printed, or saved as JSON to a file, and it can be
read back from there. -/

namespace EnvKeeper

theorem Document.texts_inj {l l' : List String} (h : texts l = texts l') : l = l' := by
  injection h with h
  refine (List.map_inj_right ?_).1 h
  intro s t hst
  exact Document.text.inj hst

theorem Report.document_inj {r r' : Report} (h : r.document = r'.document) : r = r' := by
  obtain ⟨root, files, scanned, errors⟩ := r
  obtain ⟨root', files', scanned', errors'⟩ := r'
  simp only [document, Document.table.injEq, List.cons.injEq, Prod.mk.injEq, true_and, and_true,
    Document.text.injEq, Document.number.injEq] at h
  obtain ⟨rfl, rfl, hfiles, -, herrors⟩ := h
  obtain rfl := Document.texts_inj herrors
  obtain rfl : files = files' := by
    refine (List.map_inj_right ?_).1 hfiles
    intro p q hpq
    obtain ⟨hpath, hnames⟩ := Prod.mk.inj hpq
    exact Prod.ext hpath (Document.texts_inj hnames)
  rfl

theorem Document.depth_texts (l : List String) : (texts l).depth = 1 := by
  have h : Document.depthOfItems (l.map .text) = 0 := by
    induction l with
    | nil => rfl
    | cons s l ih => rw [List.map_cons, depthOfItems, depth, ih]; rfl
  rw [texts, depth, h]

theorem Yaml.keysFit_texts (longest : Nat) (l : List String) :
    keysFit longest (.texts l) = true := by
  have h : itemsFit longest (l.map .text) = true := by
    induction l with
    | nil => rfl
    | cons s l ih => rw [List.map_cons, itemsFit, keysFit, ih]; rfl
  rw [Document.texts, keysFit, h]

/-- Of the keys of a report only the paths may be too long. -/
theorem Report.document_fits (r : Report) : ∃ f, r.document = .table f ∧
    Document.depthOfFields f ≤ 2 ∧
    ∀ longest, 13 ≤ longest →
      Yaml.fieldsFit longest f = r.files.keys.all (Yaml.keyFits longest) := by
  have hdocument : r.document = .table [("root", .text r.root), ("files_scanned", .number r.scanned),
      ("files", .table (r.files.map fun x => (x.1, .texts x.2))), ("env_vars", .texts r.names),
      ("errors", .texts r.errors)] := rfl
  have hdepth : Document.depthOfFields (r.files.map fun x => (x.1, .texts x.2)) ≤ 1 := by
    induction r.files with
    | nil => exact Nat.zero_le 1
    | cons x t ih =>
      rw [List.map_cons, Document.depthOfFields, Document.depth_texts]
      omega
  have hfiles : ∀ longest, Yaml.fieldsFit longest (r.files.map fun x => (x.1, .texts x.2)) =
      r.files.keys.all (Yaml.keyFits longest) := by
    intro longest
    rw [Table.keys]
    induction r.files with
    | nil => rfl
    | cons x t ih =>
      rw [List.map_cons, Yaml.fieldsFit, Yaml.keysFit_texts, ih, Bool.and_true]
      rfl
  have hnames : ∀ key ∈ ["root", "files_scanned", "files", "env_vars", "errors"],
      Yaml.keyFits 13 key = true := by decide
  refine ⟨_, hdocument, ?_, ?_⟩
  · simp only [Document.depthOfFields, Document.depth, Document.depth_texts]
    omega
  · intro longest h
    have hfits := fun key hkey => Yaml.keyFits_mono h (hnames key hkey)
    simp only [List.forall_mem_cons] at hfits
    obtain ⟨hroot, hscanned, hpaths, hvars, herrors, -⟩ := hfits
    simp only [Yaml.fieldsFit, Yaml.keysFit, Yaml.keysFit_texts, hroot, hscanned, hpaths, hvars,
      herrors, hfiles, Bool.and_true, Bool.true_and]

namespace Command

theorem outputOf_line (s : String) : outputOf [.line s] = printed s := by
  simp [outputOf, String.join]

section

variable {d : Disk} {root : Path} {selection : Selection} {format : Format} {r : Report}

theorem scan_on {w : Desk} (h : (scan root selection).on d = (.ok r, w)) :
    ∃ j, (scan root selection).out ⟨d, []⟩ = (.ok r, ⟨d, j⟩) ∧ outputOf j = "" := by
  have hdisk := quiet_scan root selection ⟨d, []⟩
  have hsaid := silent_scan root selection ⟨d, []⟩
  rw [Run.on_eq] at h
  rw [h] at hdisk hsaid
  obtain ⟨e, j⟩ := w
  obtain rfl : e = d := hdisk
  exact ⟨j, h, hsaid⟩

theorem inspect_shown (format : Format) {w : Desk} (h : (scan root selection).on d = (.ok r, w)) :
    ∃ j, (inspect root selection format none).on d = (.ok (), ⟨d, j⟩) ∧
      outputOf j = outputOf (showReport r format) := by
  obtain ⟨j, hscan, hquiet⟩ := scan_on h
  refine ⟨j ++ showReport r format, ?_, ?_⟩
  · rw [Run.on_eq, inspect, Run.out_bind_ok hscan]
    rfl
  · rw [outputOf_append, hquiet, String.empty_append]

/-- What was saved is what the path leads to afterwards, and all else is as it was. -/
theorem inspect_saved {output : Path} {w : Desk}
    (h : (inspect root selection format (some output)).on d = (.ok (), w)) :
    ∃ r w' l, (scan root selection).on d = (.ok r, w') ∧
      (d.resolve output = .vacant l ∨ ∃ old, d.resolve output = .file l old) ∧
      w.disk.resolve output = .file l (Utf8.encode r.document.json.toList) ∧
      w.disk.here = d.here ∧ ∀ m, m ≠ l → w.disk.at? m = d.at? m := by
  rw [Run.on_eq, inspect] at h
  obtain ⟨r, w', hscan, h⟩ := Run.out_bind_eq_ok h
  obtain ⟨j, hscan', -⟩ := scan_on hscan
  obtain rfl : w' = ⟨d, j⟩ := (Prod.mk.inj (hscan.symm.trans hscan')).2
  rw [Run.out_bind_ok (Run.out_disk _)] at h
  cases hreplace : d.replace output (Utf8.encode r.document.json.toList) with
  | error e =>
    rw [hreplace] at h
    cases h
  | ok d' =>
    rw [hreplace] at h
    obtain ⟨l, old, hl, rfl, -, hnew⟩ := Disk.update_ok hreplace
    obtain rfl : w = ⟨_, _⟩ := (Prod.mk.inj h).2.symm
    refine ⟨r, _, l, hscan, ?_, hnew, rfl, ?_⟩
    · rcases hl with hl | ⟨hl, -⟩
      · exact .inr ⟨old, hl⟩
      · exact .inl hl
    · intro m hm
      exact (d.at?_put m _ (Disk.ne_nil_of_resolve hl)).trans (if_neg (Ne.symm hm))

end

section Execute

variable {d : Disk} {args : List String} {root : Option Path} {verbose : Bool}
  {selection : Selection} {format : Format} (preset : Option String)

theorem perform_scan (output : Option Path) (w : Desk) :
    (Request.perform ⟨root, verbose, .scan selection format output⟩ preset).out w =
      (do inspect (root.getD ⟨.root, w.disk.here⟩) selection format output
          return Ending.done : Run Ending).out w := by
  rw [Request.perform, Run.out_bind_ok (Run.out_disk _)]

theorem execute_shown {r : Report} {w : Desk}
    (hread : Request.read args = .ok ⟨root, verbose, .scan selection format none⟩)
    (h : (scan (root.getD ⟨.root, d.here⟩) selection).on d = (.ok r, w)) :
    (execute args preset d).1.ending = .ok .done ∧ (execute args preset d).2 = d ∧
      (execute args preset d).1.output = outputOf (showReport r format) := by
  obtain ⟨j, hinspect, hsaid⟩ := inspect_shown format h
  have hperform : (Request.perform ⟨root, verbose, .scan selection format none⟩ preset).on d =
      (.ok .done, ⟨d, j⟩) := by
    rw [Run.on_eq] at hinspect ⊢
    rw [perform_scan, Run.out_bind_ok hinspect]
    rfl
  rw [execute, hread]
  simp only [hperform, true_and]
  exact ⟨rfl, hsaid⟩

theorem execute_saved {output : Path}
    (hread : Request.read args = .ok ⟨root, verbose, .scan selection format (some output)⟩)
    (h : (execute args preset d).1.ending = .ok .done) :
    ∃ w, (inspect (root.getD ⟨.root, d.here⟩) selection format (some output)).on d = (.ok (), w) ∧
      (execute args preset d).2 = w.disk := by
  rw [execute, hread] at h ⊢
  simp only [Run.on_eq, perform_scan] at h ⊢
  rw [Run.out_bind] at h ⊢
  generalize (inspect _ selection format (some output)).out ⟨d, []⟩ = out at h ⊢
  obtain ⟨e | u, w⟩ := out
  · cases h
  · refine ⟨w, ?_, rfl⟩
    rfl

end Execute

/-- What is printed as JSON is ASCII and is read back as the whole report, so two reports are never
printed alike. A scan that saves its report has put the same text without the line end where the
path leads, whatever the format, and nothing else on the disk has changed. -/
theorem scan_json_lossless (preset : Option String) :
    (∀ r : Report, outputOf (showReport r .json) = r.document.json ++ "\n" ∧
      (∀ c ∈ (outputOf (showReport r .json)).toList, c.toNat < 0x80) ∧
      Json.read (outputOf (showReport r .json)).toList = some r.document) ∧
    (∀ r r' : Report, outputOf (showReport r .json) = outputOf (showReport r' .json) → r = r') ∧
    (∀ d args root verbose selection r w,
      Request.read args = .ok ⟨root, verbose, .scan selection .json none⟩ →
      (scan (root.getD ⟨.root, d.here⟩) selection).on d = (.ok r, w) →
      (execute args preset d).1.ending = .ok .done ∧ (execute args preset d).2 = d ∧
        (execute args preset d).1.output = outputOf (showReport r .json)) ∧
    ∀ d args root verbose selection format output,
      Request.read args = .ok ⟨root, verbose, .scan selection format (some output)⟩ →
      (execute args preset d).1.ending = .ok .done →
      ∃ r w l, (scan (root.getD ⟨.root, d.here⟩) selection).on d = (.ok r, w) ∧
        (d.resolve output = .vacant l ∨ ∃ old, d.resolve output = .file l old) ∧
        (execute args preset d).2.resolve output = .file l (Utf8.encode r.document.json.toList) ∧
        (execute args preset d).2.here = d.here ∧
        ∀ m, m ≠ l → (execute args preset d).2.at? m = d.at? m := by
  have hread : ∀ r : Report,
      Json.read (outputOf (showReport r .json)).toList = some r.document := by
    intro r
    rw [showReport, outputOf_line, r.document.printed_json.1, String.toList_append, Document.json,
      String.toList_ofList]
    exact Json.read_value r.document ['\n'] rfl
  refine ⟨?_, ?_, ?_, ?_⟩
  · intro r
    refine ⟨?_, ?_, hread r⟩
    · rw [showReport, outputOf_line, r.document.printed_json.1]
    · rw [showReport, outputOf_line]
      exact r.document.printed_json.2
  · intro r r' h
    apply Report.document_inj
    have := hread r
    rw [h, hread r'] at this
    exact (Option.some.inj this).symm
  · intro d args root verbose selection r w hargs hscan
    exact execute_shown preset hargs hscan
  · intro d args root verbose selection format output hargs hdone
    obtain ⟨w, hinspect, hdisk⟩ := execute_saved preset hargs hdone
    rw [hdisk]
    exact inspect_saved hinspect

theorem scan_json_lossless_escaped :
    let r : Report := { root := "/\"\\\x7f", files := [("é/😀.js", ["A"])], scanned := 1,
                        errors := ["\x1b[1m\n"] }
    let d : Disk := ⟨[(["a.js"], .file (Utf8.encode "env.A".toList)), (["out"], .link "new")], []⟩
    let args := ["scan", "--format", "yaml", "--output", "out"]
    Json.read (outputOf (showReport r .json)).toList = some r.document ∧
    outputOf (showReport r .json) ≠ outputOf (showReport { r with errors := ["\x1b[m\n"] } .json) ∧
    (execute ["scan", "--format", "json"] none d).1.output =
      outputOf (showReport { root := "/", files := [("a.js", ["A"])], scanned := 1 } .json) ∧
    Request.read args = .ok ⟨none, false, .scan {} .yaml (some (.ofText "out"))⟩ ∧
    (execute args none d).1.ending = .ok .done ∧
    ∃ r w, (scan ⟨.root, []⟩ {}).on d = (.ok r, w) ∧
      (execute args none d).2.bytes? (.ofText "out") = some (Utf8.encode r.document.json.toList) ∧
      (execute args none d).2.at? ["out"] = some (.link "new") := by
  -- a report with much to escape, and one that is saved through a link where YAML was asked for
  intro r d args
  obtain ⟨hread, hinj, hshown, hsaved⟩ := scan_json_lossless none
  have hfound : ((scan ⟨.root, []⟩ {}).on d).1 =
      .ok { root := "/", files := [("a.js", ["A"])], scanned := 1 } := by decide +kernel
  have hscan : (scan ⟨.root, []⟩ {}).on d = (.ok _, ((scan ⟨.root, []⟩ {}).on d).2) :=
    Prod.ext hfound rfl
  have hshow : Request.read ["scan", "--format", "json"] =
      .ok ⟨none, false, .scan {} .json none⟩ := by decide +kernel
  have hargs : Request.read args =
      .ok ⟨none, false, .scan {} .yaml (some (.ofText "out"))⟩ := by decide +kernel
  have hdone : (execute args none d).1.ending = .ok .done := by decide +kernel
  have hplace : d.resolve (.ofText "out") = .vacant ["new"] := by decide
  refine ⟨(hread r).2.2, ?_, ?_, hargs, hdone, ?_⟩
  · intro h
    exact absurd (congrArg Report.errors (hinj _ _ h)) (by decide)
  · exact (hshown d _ _ _ _ _ _ hshow hscan).2.2
  · obtain ⟨r', w, l, hon, hl, hnew, -, hkeep⟩ := hsaved d args _ _ _ _ _ hargs hdone
    obtain rfl : l = ["new"] := by
      rw [hplace] at hl
      rcases hl with hl | ⟨old, hl⟩
      · exact (Target.vacant.inj hl).symm
      · exact absurd hl (by simp)
    refine ⟨r', w, hon, ?_, ?_⟩
    · rw [Disk.bytes?, hnew]
    · rw [hkeep _ (by decide)]
      decide

theorem printed_yaml (f : List (String × Document)) :
    printed (Document.table f).yaml = String.ofList (Yaml.document (.table f)) ∧
      Yaml.document (.table f) = Yaml.body f ++ ['\n'] := by
  obtain ⟨hdocument, hyaml⟩ := Document.yaml_table f
  refine ⟨?_, hdocument⟩
  rw [hyaml, hdocument, printed_ascii (Yaml.neat_body f).ascii, String.ofList_append]

/-- A reader for keys of `longest` characters reads a report, or refuses it for one of its paths. -/
theorem read_showReport (r : Report) (longest : Nat) (h : 13 ≤ longest) :
    Yaml.read longest (outputOf (showReport r .yaml)).toList =
      if r.files.keys.all (Yaml.keyFits longest) then some r.document else none := by
  obtain ⟨f, hf, hdepth, hfits⟩ := r.document_fits
  have hwidth : 2 * Document.depthOfFields f + 2 < Yaml.width := by
    rw [Yaml.width]
    omega
  obtain ⟨hprinted, hdocument⟩ := printed_yaml f
  rw [showReport, outputOf_line, hf, hprinted, String.toList_ofList, hdocument,
    Yaml.read_body longest hwidth, hfits longest h]

theorem eq_of_printed_yaml {r r' : Report}
    (h : outputOf (showReport r .yaml) = outputOf (showReport r' .yaml)) : r = r' := by
  obtain ⟨m, hm⟩ := Yaml.exists_keyFits r.files.keys
  obtain ⟨m', hm'⟩ := Yaml.exists_keyFits r'.files.keys
  have hwhole : ∀ (q : Report) (n : Nat), q.files.keys.all (Yaml.keyFits n) = true →
      n ≤ max 13 (max m m') →
      Yaml.read (max 13 (max m m')) (outputOf (showReport q .yaml)).toList = some q.document := by
    intro q n hn hle
    rw [read_showReport q _ (Nat.le_max_left _ _), if_pos]
    rw [List.all_eq_true] at hn ⊢
    exact fun key hkey => Yaml.keyFits_mono hle (hn key hkey)
  have hr := hwhole r m hm (by omega)
  rw [h, hwhole r' m' hm' (by omega)] at hr
  exact (Report.document_inj (Option.some.inj hr)).symm

/-- What is printed as YAML is what was written of the report, with its one line end. It is read back
as the whole report exactly if no path is written as a simple key of more than 1024 characters; else
it is no YAML. No two reports are printed alike. -/
theorem scan_yaml_lossless_iff (preset : Option String) :
    (∀ r : Report,
      outputOf (showReport r .yaml) = r.document.yaml ++ "\n" ∧
      String.ofList (Yaml.document r.document) = r.document.yaml ++ "\n" ∧
      Yaml.read 1024 (outputOf (showReport r .yaml)).toList =
        if ∀ path ∈ r.files.keys, Yaml.isSimpleKey path.toList = true →
          (Yaml.scalar ⟨0, false⟩ 0 path.toList).length ≤ 1024
        then some r.document else none) ∧
    (∀ r r' : Report, outputOf (showReport r .yaml) = outputOf (showReport r' .yaml) → r = r') ∧
    ∀ d args root verbose selection r w,
      Request.read args = .ok ⟨root, verbose, .scan selection .yaml none⟩ →
      (scan (root.getD ⟨.root, d.here⟩) selection).on d = (.ok r, w) →
      (execute args preset d).1.ending = .ok .done ∧ (execute args preset d).2 = d ∧
        (execute args preset d).1.output = outputOf (showReport r .yaml) := by
  refine ⟨?_, fun r r' => eq_of_printed_yaml, ?_⟩
  · intro r
    have hread := read_showReport r 1024 (by decide)
    obtain ⟨f, hf, -, -⟩ := r.document_fits
    obtain ⟨hprinted, hdocument⟩ := printed_yaml f
    have hline : String.ofList (Yaml.document r.document) = r.document.yaml ++ "\n" := by
      rw [hf, hdocument, (Document.yaml_table f).2, String.ofList_append]
    refine ⟨?_, hline, ?_⟩
    · rw [showReport, outputOf_line, ← hline, hf]
      exact hprinted
    · rw [hread]
      refine if_congr ?_ rfl rfl
      rw [List.all_eq_true]
      exact forall₂_congr fun _ _ => Yaml.keyFits_iff
  · intro d args root verbose selection r w hargs hscan
    exact execute_shown preset hargs hscan

theorem read_scan_yaml :
    Request.read ["scan", "--format", "yaml"] = .ok ⟨none, false, .scan {} .yaml none⟩ := by
  decide +kernel

theorem scan_yaml_lossless_quoted :
    let r : Report := { root := "~", files := [("# 'x': y", ["yes", "A"]), ("12", ["0x1"])], scanned := 2,
                        errors := [" a: b\n", "\x1b[1m"] }
    let long := String.ofList (List.replicate 51 '😀' ++ '/' :: List.replicate 52 '😀')
    let r' : Report := { files := [(long, ["A"])], scanned := 1 }
    let d : Disk := ⟨[(["a.js"], .file (Utf8.encode "env.no".toList))], []⟩
    Yaml.read 1024 (outputOf (showReport r .yaml)).toList = some r.document ∧
    Yaml.read 1024 (outputOf (showReport r' .yaml)).toList = none ∧
    outputOf (showReport r .yaml) ≠ outputOf (showReport { r with root := "" } .yaml) ∧
    (execute ["scan", "--format", "yaml"] none d).1.output =
      outputOf (showReport { root := "/", files := [("a.js", ["no"])], scanned := 1 } .yaml) := by
  -- a report with much to quote, one with a path of 104 characters that becomes a key of 1033
  -- ones, and the report of a scan
  intro r long r' d
  obtain ⟨hread, hinj, hshown⟩ := scan_yaml_lossless_iff none
  have hlong : long.toList = List.replicate 51 '😀' ++ '/' :: List.replicate 52 '😀' :=
    String.toList_ofList
  have hfound : ((scan ⟨.root, []⟩ {}).on d).1 =
      .ok { root := "/", files := [("a.js", ["no"])], scanned := 1 } := by decide +kernel
  have hscan : (scan ⟨.root, []⟩ {}).on d = (.ok _, ((scan ⟨.root, []⟩ {}).on d).2) :=
    Prod.ext hfound rfl
  refine ⟨?_, ?_, ?_, (hshown d _ _ _ _ _ _ read_scan_yaml hscan).2.2⟩
  · rw [(hread r).2.2, if_pos]
    decide
  · rw [(hread r').2.2, if_neg]
    intro hfits
    have hkey := hfits long List.mem_cons_self
    rw [hlong] at hkey
    exact absurd (hkey (by decide)) (by decide +kernel)
  · intro h
    exact absurd (congrArg Report.root (hinj _ _ h)) (by decide)

end Command
end EnvKeeper
