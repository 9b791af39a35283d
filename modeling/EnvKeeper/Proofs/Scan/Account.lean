import EnvKeeper.Proofs.FirstSeen
import EnvKeeper.Proofs.Glob.Selected
import EnvKeeper.Proofs.Sync.Outcome
import EnvKeeper.Proofs.Table
import EnvKeeper.Proofs.Text.Utf8

/-! A report accounts for every candidate: it is counted if it holds a text and has its error if not,
and its names are listed if there are any. What is reported of a file depends on that file only. -/

namespace EnvKeeper

namespace Disk

def text? (d : Disk) (p : Path) : Option (List Char) :=
  (d.bytes? p).bind fun b => (Utf8.decode b).toOption

def references (d : Disk) (p : Path) : List String :=
  match d.text? p with
  | some t => Reference.names (unifyLineEnds t)
  | none => []

variable {d : Disk} {p : Path} {t : List Char}

theorem text?_eq_some : d.text? p = some t ↔ d.bytes? p = some (Utf8.encode t) := by
  unfold text?
  cases d.bytes? p with
  | none => simp
  | some b =>
    rw [Option.bind_some, Option.some_inj, ← Utf8.decode_eq_ok]
    cases Utf8.decode b <;> simp [Except.toOption]

end Disk

namespace Scanned

def isRead (s : Scanned) : Bool := s.names.toOption.isSome

def listed? (s : Scanned) : Option (String × List String) :=
  match s.names with
  | .ok names => if names.isEmpty then none else some (s.file, names)
  | .error _ => none

def error? (s : Scanned) : Option String :=
  match s.names with
  | .ok _ => none
  | .error f => some ("Could not read " ++ s.file ++ ": " ++ f.message)

end Scanned

namespace Report

theorem foldl_take (l : List Scanned) (r : Report) :
    l.foldl take r =
      { root := r.root
        files := (l.filterMap Scanned.listed?).foldl (fun t (k, a) => t.put k a) r.files
        scanned := r.scanned + l.countP Scanned.isRead
        errors := r.errors ++ l.filterMap Scanned.error? } := by
  induction l generalizing r with
  | nil => simp
  | cons s l ih =>
    rw [List.foldl_cons, ih]
    cases hn : s.names with
    | error f => simp [take, hn, Scanned.listed?, Scanned.error?, Scanned.isRead, Except.toOption]
    | ok names =>
      by_cases he : names.isEmpty = true
      · simp [take, add, hn, he, Scanned.listed?, Scanned.error?, Scanned.isRead, Except.toOption]
        omega
      · simp [take, add, hn, he, Scanned.listed?, Scanned.error?, Scanned.isRead, Except.toOption]
        omega

end Report

namespace Scanned

variable {d : Disk} {root : Path} {q : List String}

theorem names_ofFile (h : d.isFile (root.append q) = true) :
    ∃ b, d.bytes? (root.append q) = some b ∧ (ofFile d root q).names =
      (Utf8.decode b).map fun t => (Reference.names (unifyLineEnds t)).eraseDups := by
  obtain ⟨b, hb⟩ := Option.isSome_iff_exists.1 h
  refine ⟨b, hb, ?_⟩
  simp only [ofFile, hb, Option.getD_some, Reference.distinctNames]

theorem isRead_ofFile (h : d.isFile (root.append q) = true) :
    (ofFile d root q).isRead = (d.text? (root.append q)).isSome := by
  obtain ⟨b, hb, hn⟩ := names_ofFile h
  rw [isRead, hn, Disk.text?, hb, Option.bind_some]
  cases Utf8.decode b <;> rfl

theorem error?_ofFile (h : d.isFile (root.append q) = true) :
    (d.text? (root.append q)).isSome = true ∧ (ofFile d root q).error? = none ∨
      (d.text? (root.append q)).isSome = false ∧ ∃ b f, d.bytes? (root.append q) = some b ∧
        Utf8.decode b = .error f ∧ (ofFile d root q).error? =
          some ("Could not read " ++ "/".intercalate q ++ ": " ++ f.message) := by
  obtain ⟨b, hb, hn⟩ := names_ofFile h
  rw [error?, hn, Disk.text?, hb, Option.bind_some]
  cases hdec : Utf8.decode b with
  | ok t => exact .inl ⟨rfl, rfl⟩
  | error f => exact .inr ⟨rfl, b, f, rfl, hdec, rfl⟩

theorem listed?_ofFile (h : d.isFile (root.append q) = true) :
    (ofFile d root q).listed? =
      if (d.references (root.append q)).isEmpty then none
      else some ("/".intercalate q, (d.references (root.append q)).eraseDups) := by
  obtain ⟨b, hb, hn⟩ := names_ofFile h
  rw [listed?, hn, Disk.references, Disk.text?, hb, Option.bind_some]
  cases Utf8.decode b with
  | error f => rfl
  | ok t =>
    have hempty (l : List String) : l.eraseDups.isEmpty = l.isEmpty := by
      cases l with
      | nil => rfl
      | cons a l => rw [List.eraseDups_cons]; rfl
    simp only [Except.map, Except.toOption, hempty]
    rfl

end Scanned

/-- A report `r` of the candidates `files`, said file by file. -/
structure Report.Accounts (d : Disk) (root : Path) (files : List (List String)) (r : Report) :
    Prop where
  counted : r.scanned + r.errors.length = files.length
  scanned : r.scanned = files.countP fun q => (d.text? (root.append q)).isSome
  errors : List.Forall₂
    (fun q e => ∃ b f, d.bytes? (root.append q) = some b ∧ (∀ t, b ≠ Utf8.encode t) ∧
      Utf8.decode b = .error f ∧ e = "Could not read " ++ "/".intercalate q ++ ": " ++ f.message)
    (files.filter fun q => !(d.text? (root.append q)).isSome) r.errors
  listed : List.Forall₂
    (fun q x => x.1 = "/".intercalate q ∧ IsFirstSeen (d.references (root.append q)) x.2)
    (files.filter fun q => !(d.references (root.append q)).isEmpty) r.files
  distinct : r.files.keys.Nodup
  ascending : r.names.Pairwise (· < ·)
  names : ∀ n, n ∈ r.names ↔ ∃ q ∈ files, n ∈ d.references (root.append q)

/-- Names without a slash are read back off the path that they make. -/
theorem intercalate_inj {q q' : List String} (hq : q ≠ []) (hq' : q' ≠ [])
    (h : ∀ n ∈ q, '/' ∉ n.toList) (h' : ∀ n ∈ q', '/' ∉ n.toList)
    (he : "/".intercalate q = "/".intercalate q') : q = q' := by
  have hsplit {q : List String} (hq : q ≠ []) (h : ∀ n ∈ q, '/' ∉ n.toList) :
      List.splitOn '/' ("/".intercalate q).toList = q.map String.toList := by
    rw [String.toList_intercalate]
    exact List.splitOn_intercalate '/' (List.forall_mem_map.2 h) (by simpa using hq)
  have hmap := hsplit hq h
  rw [he, hsplit hq' h'] at hmap
  exact (List.map_injective_iff.2 fun _ _ => String.toList_inj.1) hmap.symm

section

variable {d : Disk} {root : Path} {files : List (List String)}

def listing (d : Disk) (root : Path) (q : List String) : String × List String :=
  ("/".intercalate q, (d.references (root.append q)).eraseDups)

theorem filterMap_error? (hfile : ∀ q ∈ files, d.isFile (root.append q) = true) :
    List.Forall₂ (fun q e => ∃ b f, d.bytes? (root.append q) = some b ∧ (∀ t, b ≠ Utf8.encode t) ∧
        Utf8.decode b = .error f ∧ e = "Could not read " ++ "/".intercalate q ++ ": " ++ f.message)
      (files.filter fun q => !(d.text? (root.append q)).isSome)
      ((files.map (Scanned.ofFile d root)).filterMap Scanned.error?) := by
  induction files with
  | nil => exact .nil
  | cons q files ih =>
    obtain ⟨hq, hfile⟩ := List.forall_mem_cons.1 hfile
    rw [List.map_cons, List.filter_cons]
    rcases Scanned.error?_ofFile hq with ⟨ht, he⟩ | ⟨ht, b, f, hb, hf, he⟩
    · rw [List.filterMap_cons_none he, ht]
      exact ih hfile
    · rw [List.filterMap_cons_some he, ht]
      refine .cons ⟨b, f, hb, fun t hbt => ?_, hf, rfl⟩ (ih hfile)
      rw [Disk.text?_eq_some.2 (hbt ▸ hb)] at ht
      cases ht

theorem filterMap_listed? (hfile : ∀ q ∈ files, d.isFile (root.append q) = true) :
    (files.map (Scanned.ofFile d root)).filterMap Scanned.listed? =
      (files.filter fun q => !(d.references (root.append q)).isEmpty).map (listing d root) := by
  induction files with
  | nil => rfl
  | cons q files ih =>
    obtain ⟨hq, hfile⟩ := List.forall_mem_cons.1 hfile
    rw [List.map_cons, List.filterMap_cons, Scanned.listed?_ofFile hq, ih hfile, List.filter_cons]
    cases (d.references (root.append q)).isEmpty <;> rfl

theorem countP_isRead (hfile : ∀ q ∈ files, d.isFile (root.append q) = true) :
    (files.map (Scanned.ofFile d root)).countP Scanned.isRead =
      files.countP fun q => (d.text? (root.append q)).isSome := by
  rw [List.countP_map]
  refine List.countP_congr fun q hq => ?_
  rw [Function.comp_apply, Scanned.isRead_ofFile (hfile q hq)]

theorem reportOf_eq (hfile : ∀ q ∈ files, d.isFile (root.append q) = true) :
    reportOf d root files =
      { root := root.text
        files := ((files.filter fun q => !(d.references (root.append q)).isEmpty).map
          (listing d root)).foldl (fun t (k, a) => t.put k a) []
        scanned := files.countP fun q => (d.text? (root.append q)).isSome
        errors := (files.map (Scanned.ofFile d root)).filterMap Scanned.error? } := by
  rw [reportOf, Report.ofScanned, Report.foldl_take, filterMap_listed? hfile, countP_isRead hfile]
  simp only [Nat.zero_add, List.nil_append]

theorem files_reportOf (hfile : ∀ q ∈ files, d.isFile (root.append q) = true)
    (hnodup : (files.map "/".intercalate).Nodup) :
    (reportOf d root files).files =
      (files.filter fun q => !(d.references (root.append q)).isEmpty).map (listing d root) := by
  have hkeys (l : List (List String)) :
      Table.keys (l.map (listing d root)) = l.map "/".intercalate := by
    rw [Table.keys, List.map_map]
    rfl
  rw [reportOf_eq hfile]
  refine (Table.foldl_put_new (t := []) ?_).trans (List.nil_append _)
  rw [hkeys]
  exact hnodup.sublist (List.filter_sublist.map _)

theorem mem_names_reportOf (hfile : ∀ q ∈ files, d.isFile (root.append q) = true)
    (hnodup : (files.map "/".intercalate).Nodup) {n : String} :
    n ∈ (reportOf d root files).names ↔ ∃ q ∈ files, n ∈ d.references (root.append q) := by
  rw [Report.names, mem_ascending, files_reportOf hfile hnodup, List.mem_flatMap]
  constructor
  · rintro ⟨x, hx, hn⟩
    obtain ⟨q, hq, rfl⟩ := List.mem_map.1 hx
    exact ⟨q, List.mem_of_mem_filter hq, List.mem_eraseDups.1 hn⟩
  · rintro ⟨q, hq, hn⟩
    refine ⟨_, List.mem_map_of_mem (List.mem_filter.2 ⟨hq, ?_⟩), List.mem_eraseDups.2 hn⟩
    simp [List.ne_nil_of_mem hn]

theorem accounts_reportOf (hfile : ∀ q ∈ files, d.isFile (root.append q) = true)
    (hnodup : (files.map "/".intercalate).Nodup) :
    (reportOf d root files).Accounts d root files := by
  have herrors := filterMap_error? hfile
  have hlisted := files_reportOf hfile hnodup
  refine ⟨?_, by rw [reportOf_eq hfile], by rw [reportOf_eq hfile]; exact herrors, ?_, ?_,
    pairwise_ascending _, fun n => mem_names_reportOf hfile hnodup⟩
  · rw [files.length_eq_countP_add_countP fun q => (d.text? (root.append q)).isSome]
    simp only [reportOf_eq hfile, ← herrors.length_eq, List.countP_eq_length_filter,
      Bool.not_eq_true, Bool.decide_eq_false]
  · rw [hlisted, List.forall₂_map_right_iff]
    exact List.forall₂_same.2 fun q _ => ⟨rfl, isFirstSeen_eraseDups _⟩
  · rw [reportOf_eq hfile]
    exact Table.nodup_keys_foldl _ List.nodup_nil

theorem files_filter_readable :
    (files.filter fun q => !(d.references (root.append q)).isEmpty) =
      (files.filter fun q => (d.text? (root.append q)).isSome).filter
        fun q => !(d.references (root.append q)).isEmpty := by
  rw [List.filter_filter]
  refine List.filter_congr fun q _ => ?_
  unfold Disk.references
  cases d.text? (root.append q) <;> simp

/-- Only the files that can be read count for what is listed. -/
theorem reportOf_congr {d' : Disk} {files' : List (List String)}
    (hfile : ∀ q ∈ files, d.isFile (root.append q) = true)
    (hfile' : ∀ q ∈ files', d'.isFile (root.append q) = true)
    (hread : (files.filter fun q => (d.text? (root.append q)).isSome) =
      files'.filter fun q => (d'.text? (root.append q)).isSome)
    (htext : ∀ q ∈ files, ∀ t,
      d.text? (root.append q) = some t → d'.text? (root.append q) = some t) :
    (reportOf d' root files').files = (reportOf d root files).files ∧
      (reportOf d' root files').scanned = (reportOf d root files).scanned := by
  have hrefs (q) (hq : q ∈ files.filter fun q => (d.text? (root.append q)).isSome) :
      d'.references (root.append q) = d.references (root.append q) := by
    obtain ⟨hq, ht⟩ := List.mem_filter.1 hq
    obtain ⟨t, ht⟩ := Option.isSome_iff_exists.1 ht
    rw [Disk.references, Disk.references, ht, htext q hq t ht]
  rw [reportOf_eq hfile, reportOf_eq hfile']
  refine ⟨congrArg (List.foldl _ []) ?_, ?_⟩
  · rw [files_filter_readable, ← hread, files_filter_readable (d := d),
      List.filter_congr (q := fun q => !(d.references (root.append q)).isEmpty) fun q hq => by
        rw [hrefs q hq]]
    refine List.map_congr_left fun q hq => ?_
    rw [listing, listing, hrefs q (List.mem_of_mem_filter hq)]
  · simp only [List.countP_eq_length_filter, hread]

end

/-- Every scan with valid patterns ends, and its report accounts for the candidates. Another scan
whose readable candidates are the same and hold the same texts reports the same files and names,
whatever it cannot read. -/
theorem scan_accounts {d : Disk} (root : Path) {s : Selection} (hd : d.IsProper)
    (hs : ∀ t ∈ s.patterns, Pattern.IsValid t) :
    ∃ files r w, d.candidates root s = .ok files ∧ files.Pairwise (· < ·) ∧
      (scan root s).on d = (.ok r, w) ∧ r.Accounts d root files ∧
      ∀ d' s' files' r' w', d'.candidates root s' = .ok files' → (scan root s').on d' = (.ok r', w') →
        (files.filter fun q => (d.text? (root.append q)).isSome) =
          files'.filter (fun q => (d'.text? (root.append q)).isSome) →
        (∀ q ∈ files, ∀ t, d.text? (root.append q) = some t → d'.text? (root.append q) = some t) →
        r'.files = r.files ∧ r'.scanned = r.scanned ∧ r'.names = r.names := by
  obtain ⟨files, hfiles, hasc, hmem⟩ := Disk.candidates_of_valid root hd (Pattern.isValid_used hs)
  have hfile := Disk.isFile_of_candidates hfiles
  have hnodup : (files.map "/".intercalate).Nodup := by
    refine List.Nodup.map_on (fun q hq q' hq' he => ?_) (hasc.imp fun h => ne_of_lt h)
    have hq := (hmem q).1 hq
    have hq' := (hmem q').1 hq'
    have hused := Pattern.isValid_used hs
    exact intercalate_inj (hq.ne_nil hused) (hq'.ne_nil hused) (hq.noSlash hd) (hq'.noSlash hd) he
  obtain ⟨j, hscan⟩ := out_scan_ok hfiles []
  refine ⟨files, _, _, hfiles, hasc, hscan, accounts_reportOf hfile hnodup, ?_⟩
  intro d' s' files' r' w' hfiles' hscan' hread htext
  obtain ⟨j', hout⟩ := out_scan_ok hfiles' []
  rw [Run.on_eq, hout] at hscan'
  cases hscan'
  have hsame := reportOf_congr hfile (Disk.isFile_of_candidates hfiles') hread htext
  exact ⟨hsame.1, hsame.2, by rw [Report.names, Report.names, hsame.1]⟩

/-- A tree with a file of repeated references, one that is no text and an empty one. -/
def mixedTree : Disk where
  entries := [(["c.js"], .file []), (["b.js"], .file [0xFF]),
    (["a.js"], .file (Utf8.encode "env.B env.A env.B".toList))]
  here := []

theorem scan_accounts_mixed :
    mixedTree.IsProper ∧ (∀ t ∈ ["*.js"], Pattern.IsValid t) ∧
    ∃ w, (scan ⟨.relative, []⟩ { patterns := ["*.js"] }).on mixedTree =
        (.ok { files := [("a.js", ["B", "A"])], scanned := 2, errors :=
          ["Could not read b.js: 'utf-8' codec can't decode byte 0xff in position 0: " ++
            "invalid start byte"] }, w) ∧
      Report.Accounts mixedTree ⟨.relative, []⟩ [["a.js"], ["b.js"], ["c.js"]]
        { files := [("a.js", ["B", "A"])], scanned := 2, errors :=
          ["Could not read b.js: 'utf-8' codec can't decode byte 0xff in position 0: " ++
            "invalid start byte"] } := by
  have hd : mixedTree.IsProper := Disk.isProper_of_keys (by decide) (by decide)
  have hs : ∀ t ∈ ["*.js"], Pattern.IsValid t := by decide
  obtain ⟨files, r, w, hfiles, -, hscan, hr, -⟩ := scan_accounts ⟨.relative, []⟩
    (s := { patterns := ["*.js"] }) hd hs
  have hfound : mixedTree.candidates ⟨.relative, []⟩ { patterns := ["*.js"] } =
      .ok [["a.js"], ["b.js"], ["c.js"]] := by decide +kernel
  have hreport : ((scan ⟨.relative, []⟩ { patterns := ["*.js"] }).on mixedTree).1 =
      .ok { files := [("a.js", ["B", "A"])], scanned := 2, errors :=
        ["Could not read b.js: 'utf-8' codec can't decode byte 0xff in position 0: " ++
          "invalid start byte"] } := by decide +kernel
  rw [hfound] at hfiles
  rw [hscan] at hreport
  cases hfiles
  cases hreport
  exact ⟨hd, hs, w, hscan, hr⟩

end EnvKeeper
