import EnvKeeper.Proofs.Command.Inspect
import EnvKeeper.Proofs.Document.Yaml.Names
import EnvKeeper.Proofs.Scan.Grown

/-! The names in a report that is printed as YAML. Each has a line of its own in its list, and is quoted
there just if it would be read as something else than a text. -/

namespace EnvKeeper

namespace Yaml

theorem fields_eq_map (n : Nat) (f : List (String × Document)) :
    fields n f = f.map fun x => field n x.1 x.2 := by
  induction f with
  | nil => rfl
  | cons x f ih => rw [fields_cons, ih, List.map_cons]

/-- The lines of a table are those of its fields. -/
theorem lines_fields (n : Nat) {f : List (String × Document)} (hne : f ≠ []) :
    splitOn '\n' (spaces n ++ rows n (fields n f)) =
      f.flatMap fun x => splitOn '\n' (spaces n ++ field n x.1 x.2) := by
  obtain ⟨x, f, rfl⟩ := List.exists_cons_of_ne_nil hne
  rw [fields_eq_map, List.map_cons, lines_rows, List.flatMap_map, List.flatMap_cons]

def filesLines (files : List (String × List String)) : List (List Char) :=
  if files.isEmpty then ["files: ".toList ++ ['\x7b', '\x7d']]
  else "files:".toList :: files.flatMap fun x => listLines 2 x.1 x.2

def reportLines (r : Report) : List (List Char) :=
  splitOn '\n' (field 0 "root" (.text r.root))
    ++ splitOn '\n' (field 0 "files_scanned" (.number r.scanned))
    ++ filesLines r.files ++ listLines 0 "env_vars" r.names
    ++ splitOn '\n' (field 0 "errors" (.texts r.errors))

theorem lines_files {files : List (String × List String)}
    (hn : ∀ x ∈ files, ∀ m ∈ x.2, IsName m.toList) :
    splitOn '\n' (field 0 "files" (.table (files.map fun x => (x.1, .texts x.2)))) =
      filesLines files := by
  have hkey : isSimpleKey "files".toList = true ∧ simpleKey 0 "files" = "files:".toList := by
    decide
  have hline : '\n' ∉ "files:".toList := by decide
  have hlines : ∀ x ∈ files, splitOn '\n' (spaces 2 ++ field 2 x.1 (.texts x.2)) =
      listLines 2 x.1 x.2 := fun x hx => lines_field (hn x hx) 2 x.1
  rw [field, if_pos hkey.1, hkey.2]
  cases files with
  | nil => decide
  | cons x files =>
    have hbehind (col : Nat) :
        behindKey 0 col (.table ((x :: files).map fun x => (x.1, .texts x.2))) = '\n' :: (spaces 2 ++
          rows 2 (fields 2 ((x :: files).map fun x => (x.1, .texts x.2)))) := rfl
    rw [hbehind, splitOn_append, splitOn_of_not_mem hline, lines_fields 2 (by simp),
      List.flatMap_map, List.flatMap_congr hlines]
    rfl

theorem lines_report {r : Report} (hn : ∀ n ∈ r.names, IsName n.toList) :
    splitOn '\n' (document r.document) = reportLines r ++ [[]] := by
  have hfiles := lines_files fun x hx m hm =>
    hn m (mem_ascending.2 (List.mem_flatMap.2 ⟨x, hx, hm⟩))
  have hnames := lines_field hn 0 "env_vars"
  have hdocument : document r.document = (spaces 0 ++ rows 0 (fields 0 [("root", .text r.root),
      ("files_scanned", .number r.scanned),
      ("files", .table (r.files.map fun x => (x.1, .texts x.2))), ("env_vars", .texts r.names),
      ("errors", .texts r.errors)])) ++ '\n' :: [] := rfl
  rw [hdocument, splitOn_append, lines_fields 0 (List.cons_ne_nil _ _), reportLines, ← hfiles,
    ← hnames]
  simp [spaces, splitOn]

end Yaml

namespace Command

theorem isName_of_scan {d : Disk} {root : Path} {selection : Selection} {r : Report} {w : Desk}
    (h : (scan root selection).on d = (.ok r, w)) : ∀ n ∈ r.names, IsName n.toList := by
  rw [Run.on_eq] at h
  cases hfiles : d.candidates root selection with
  | error e =>
    rw [out_scan_error hfiles] at h
    cases h
  | ok files =>
    obtain ⟨j, hscan⟩ := out_scan_ok hfiles []
    rw [hscan] at h
    cases h
    exact fun n => Report.isName_of_mem_names

theorem output_lines {r : Report} (hn : ∀ n ∈ r.names, IsName n.toList) :
    splitOn '\n' (outputOf (showReport r .yaml)).toList = Yaml.reportLines r ++ [[]] := by
  obtain ⟨f, hf, -⟩ := r.document_fits
  have hlines := Yaml.lines_report hn
  rw [hf] at hlines
  rw [showReport, hf, outputOf_line, (printed_yaml f).1, String.toList_ofList, hlines]

/-- A name is written alike wherever it stands: bare if it is no word and no integer that YAML 1.1
gives another type, and else in single quotes, so that it is always read as a text. What is printed of
a report has a line for each name of its lists. The names that a scan finds are all of this kind. -/
theorem scan_yaml_keeps_types (preset : Option String) :
    (∀ n : String, IsName n.toList →
      (Yaml.isTyped n.toList = true ↔ Yaml.IsTypedName n.toList) ∧
      Yaml.style n.toList = (if Yaml.IsTypedName n.toList then .single else .bare) ∧
      (∀ p col, Yaml.scalar p col n.toList = Yaml.nameScalar n.toList) ∧
      (Yaml.ofBare n.toList = some (.text n) ↔ ¬ Yaml.IsTypedName n.toList) ∧
      ∀ m rest next, Yaml.Follows m rest next → m < Yaml.width →
        Yaml.readScalar m (Yaml.nameScalar n.toList ++ rest) = some (.text n, rest)) ∧
    (∀ r : Report, (∀ n ∈ r.names, IsName n.toList) →
      splitOn '\n' (outputOf (showReport r .yaml)).toList = Yaml.reportLines r ++ [[]]) ∧
    ∀ d args root verbose selection r w,
      Request.read args = .ok ⟨root, verbose, .scan selection .yaml none⟩ →
      (scan (root.getD ⟨.root, d.here⟩) selection).on d = (.ok r, w) →
      (∀ n ∈ r.names, IsName n.toList) ∧ (execute args preset d).1.ending = .ok .done ∧
        splitOn '\n' (execute args preset d).1.output.toList = Yaml.reportLines r ++ [[]] := by
  refine ⟨fun n hn => ?_, fun r => output_lines, ?_⟩
  · exact ⟨Yaml.isTyped_name_iff hn, Yaml.style_name hn, Yaml.scalar_name hn,
      Yaml.ofBare_name_iff hn, fun m rest next => Yaml.readScalar_name hn⟩
  · intro d args root verbose selection r w hargs hscan
    have hnames := isName_of_scan hscan
    obtain ⟨hdone, -, hshown⟩ := execute_shown preset hargs hscan
    rw [hshown]
    exact ⟨hnames, hdone, output_lines hnames⟩

theorem scan_yaml_keeps_types_quoted :
    let r : Report := { files := [("a\nb.js", ["0b_", "0b", "NULL"])], scanned := 1 }
    let d : Disk := ⟨[(["a.js"], .file (Utf8.encode "env.no env.y env.0_ env.0_8".toList))], []⟩
    (∀ p, Yaml.scalar p 90 "0x_".toList = "'0x_'".toList) ∧
    Yaml.ofBare "0_8".toList = some (.text "0_8") ∧
    Yaml.readScalar 0 (Yaml.nameScalar "1_".toList ++ ['\n']) = some (.text "1_", ['\n']) ∧
    splitOn '\n' (outputOf (showReport r .yaml)).toList =
      ["root: .", "files_scanned: 1", "files:", "  ? 'a", "", "    b.js'", "  : - '0b_'", "    - 0b",
        "    - 'NULL'", "env_vars:", "- 0b", "- '0b_'", "- 'NULL'", "errors: []", ""].map
          String.toList ∧
    splitOn '\n' (execute ["scan", "--format", "yaml"] none d).1.output.toList =
      ["root: /", "files_scanned: 1", "files:", "  a.js:", "  - 'no'", "  - y", "  - '0_'",
        "  - 0_8", "env_vars:", "- '0_'", "- 0_8", "- 'no'", "- y", "errors: []", ""].map
          String.toList := by
  -- a name past the width, two that are read, a report with names that a type claims, in the list
  -- of a file behind a key of three lines too, and a scan
  intro r d
  obtain ⟨hname, hreport, hshown⟩ := scan_yaml_keeps_types none
  have hnames : ∀ n ∈ r.names, IsName n.toList := by decide
  have hfound : ((scan ⟨.root, []⟩ {}).on d).1 =
      .ok { root := "/", files := [("a.js", ["no", "y", "0_", "0_8"])], scanned := 1 } := by
    decide +kernel
  have hscan : (scan ⟨.root, []⟩ {}).on d = (.ok _, ((scan ⟨.root, []⟩ {}).on d).2) :=
    Prod.ext hfound rfl
  refine ⟨fun p => ?_, ?_, ?_, ?_, ?_⟩
  · rw [(hname "0x_" (by decide)).2.2.1]
    decide
  · exact (hname "0_8" (by decide)).2.2.2.1.2 (by decide)
  · exact (hname "1_" (by decide)).2.2.2.2 0 _ _ (Yaml.follows_end 0) (by decide)
  · rw [hreport r hnames]
    decide
  · rw [(hshown d _ _ _ _ _ _ read_scan_yaml hscan).2.2]
    decide

end Command
end EnvKeeper
