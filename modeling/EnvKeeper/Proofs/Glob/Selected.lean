import EnvKeeper.Proofs.Ascending
import EnvKeeper.Proofs.Glob.Derives
import Mathlib.Data.List.Sort

/-! The files that a selection picks: those that a pattern derives, less those behind an excluded name,
in ascending order. So the order of the patterns and repeats among them do not count. -/

namespace EnvKeeper.Disk

variable {d : Disk} {root : Path} {s : Selection} {q r x parts : List String} {slash : Bool}

/-- The path `q` leads from `root` to a file that the selection means. -/
structure Selected (d : Disk) (root : Path) (s : Selection) (q : List String) : Prop where
  derived : ∃ t ∈ s.patternsUsed,
    d.Derives root (Pattern.endsInSlash t) (Path.ofText t).names [] q
  file : d.isFile (root.append q) = true
  kept : ∀ n ∈ q.dropLast, n ∉ s.excludedUsed

theorem isExcluded_iff {excluded : List String} :
    isExcluded excluded q = true ↔ ∃ n ∈ q.dropLast, n ∈ excluded := by
  simp only [isExcluded, List.any_eq_true, List.contains_eq_mem, decide_eq_true_eq]

theorem arrives_of_isThere {p : Path} (h : d.isThere p = true) : (d.resolve p).Arrives := by
  intro a ha
  rcases Bool.or_eq_true_iff.1 h with h | h
  · obtain ⟨l, b, hl⟩ := isFile_iff.1 h
    rw [hl] at ha
    cases ha
  · obtain ⟨l, hl⟩ := isDirectory_iff.1 h
    rw [hl] at ha
    cases ha

theorem Contributes.isDirectory {n : String} (h : d.Contributes root q n x) :
    d.isDirectory (root.append q) = true := by
  rw [isDirectory_iff]
  cases h with
  | name _ hthere =>
    obtain ⟨m, hm⟩ := resolve_parent (arrives_of_isThere hthere)
    have hparent : (root.append (q ++ [n])).parent = root.append q := by
      simp only [Path.parent, Path.append, ← List.append_assoc, List.dropLast_concat]
    exact ⟨m, hparent ▸ hm⟩
  | wild _ _ hl => exact ⟨_, hl⟩
  | anyDepth hl => exact ⟨_, hl⟩

theorem Derives.isDirectory (h : d.Derives root slash parts q r) (hp : parts ≠ []) :
    d.isDirectory (root.append q) = true := by
  cases h with
  | done => exact absurd rfl hp
  | step hc => exact hc.isDirectory

theorem Derives.isDirectory_of_slash (h : d.Derives root true parts q r) (hp : parts ≠ []) :
    d.isDirectory (root.append r) = true := by
  induction h with
  | done => exact absurd rfl hp
  | @step n parts q x r _ hdir hrest ih =>
    by_cases hnil : parts = []
    · subst hnil
      cases hrest
      exact hdir (.inr rfl)
    · exact ih hnil

/-- What holds of every entry's name and of a part holds of all that the part adds. -/
theorem Contributes.forall_mem {P : String → Prop} {n : String} (hd : d.IsProper)
    (hentry : ∀ m, IsEntryName m → P m) (h : d.Contributes root q n x) (hn : P n) : ∀ m ∈ x, P m := by
  intro m hm
  cases h with
  | name =>
    rw [List.mem_singleton.1 hm]
    exact hn
  | wild _ _ _ hat =>
    rw [List.mem_singleton.1 hm]
    exact hentry _ (hd.named _ _ hat)
  | anyDepth _ hnames => exact hentry m (hnames.isEntryName hd m hm)

theorem Derives.forall_mem {P : String → Prop} (hd : d.IsProper)
    (hentry : ∀ m, IsEntryName m → P m) (h : d.Derives root slash parts q r)
    (hp : ∀ n ∈ parts, P n) (hq : ∀ n ∈ q, P n) : ∀ n ∈ r, P n := by
  induction h with
  | done => exact hq
  | step hc _ _ ih =>
    obtain ⟨hn, hp⟩ := List.forall_mem_cons.1 hp
    exact ih hp (List.forall_mem_append.2 ⟨hq, hc.forall_mem hd hentry hn⟩)

theorem noSlash_of_mem_names {t n : String} (h : n ∈ (Path.ofText t).names) : '/' ∉ n.toList := by
  have hsplit : n ∈ Path.splitText t := List.mem_of_mem_filter h
  obtain ⟨p, hp, rfl⟩ := List.mem_map.1 hsplit
  rw [String.toList_ofList]
  exact not_mem_of_mem_splitOn hp

theorem isFile_eq_false_of_isDirectory {p : Path} (h : d.isDirectory p = true) :
    d.isFile p = false := by
  obtain ⟨l, hl⟩ := isDirectory_iff.1 h
  rw [isFile, bytes?, hl]
  rfl

/-- A valid pattern selects what it derives. -/
theorem mem_select (root : Path) (hd : d.IsProper) {t : String} (ht : Pattern.IsValid t) :
    ∃ p, Pattern.read t = .ok p ∧
      ∀ q, q ∈ d.select root p ↔ d.Derives root (Pattern.endsInSlash t) (Path.ofText t).names [] q := by
  obtain ⟨ps, hread, hps⟩ := Pattern.read_of_valid ht
  refine ⟨_, hread, fun q => ?_⟩
  rw [← mem_expand_iff hd (Pattern.endsInSlash t) hps, select]
  split
  · rfl
  · next hroot =>
    refine iff_of_false List.not_mem_nil fun h => hroot ?_
    rw [mem_expand_iff hd _ hps] at h
    have hdir := h.isDirectory ht.parts
    simpa [Path.append] using hdir

theorem mem_flatMap_select (hd : d.IsProper) {ts : List String} {ps : List Pattern}
    (ht : ∀ t ∈ ts, Pattern.IsValid t)
    (h : List.Forall₂ (fun t p => Pattern.read t = .ok p) ts ps) :
    q ∈ ps.flatMap (d.select root) ↔
      ∃ t ∈ ts, d.Derives root (Pattern.endsInSlash t) (Path.ofText t).names [] q := by
  induction h with
  | nil => simp
  | @cons t p ts ps hp _ ih =>
    obtain ⟨p', hp', hmem⟩ := mem_select root hd (ht t List.mem_cons_self)
    rw [hp] at hp'
    cases hp'
    rw [List.flatMap_cons, List.mem_append, hmem, ih fun t h => ht t (List.mem_cons_of_mem _ h),
      List.exists_mem_cons_iff]

theorem candidates_of_valid (root : Path) (hd : d.IsProper)
    (hs : ∀ t ∈ s.patternsUsed, Pattern.IsValid t) :
    ∃ l, d.candidates root s = .ok l ∧ l.Pairwise (· < ·) ∧ ∀ q, q ∈ l ↔ d.Selected root s q := by
  obtain ⟨ps, hps⟩ := exists_forall₂ fun t ht =>
    (mem_select root hd (hs t ht)).imp fun _ h => h.1
  refine ⟨_, by rw [candidates, mapM_eq_ok.2 hps]; rfl, pairwise_ascending _, fun q => ?_⟩
  rw [mem_ascending, List.mem_filter, mem_flatMap_select hd hs hps]
  constructor
  · rintro ⟨ht, h⟩
    obtain ⟨hfile, hex⟩ := Bool.and_eq_true_iff.1 h
    refine ⟨ht, hfile, fun n hn hm => ?_⟩
    rw [isExcluded_iff.2 ⟨n, hn, hm⟩] at hex
    cases hex
  · rintro ⟨ht, hfile, hkept⟩
    refine ⟨ht, Bool.and_eq_true_iff.2 ⟨hfile, ?_⟩⟩
    cases hex : isExcluded s.excludedUsed q with
    | false => rfl
    | true =>
      obtain ⟨n, hn, hm⟩ := isExcluded_iff.1 hex
      exact absurd hm (hkept n hn)

theorem isFile_of_candidates {files : List (List String)} (h : d.candidates root s = .ok files) :
    ∀ q ∈ files, d.isFile (root.append q) = true := by
  intro q hq
  unfold candidates at h
  obtain ⟨ps, -, h⟩ := bind_eq_ok h
  cases h
  exact (Bool.and_eq_true_iff.1 (List.mem_filter.1 (mem_ascending.1 hq)).2).1

theorem Selected.isDirectory (hs : ∀ t ∈ s.patternsUsed, Pattern.IsValid t)
    (h : d.Selected root s q) : d.isDirectory root = true := by
  obtain ⟨t, ht, hq⟩ := h.derived
  have hdir := hq.isDirectory (hs t ht).parts
  rwa [Path.append, List.append_nil] at hdir

theorem Selected.noSlash (hd : d.IsProper) (h : d.Selected root s q) :
    ∀ n ∈ q, '/' ∉ n.toList := by
  obtain ⟨t, -, hq⟩ := h.derived
  exact hq.forall_mem hd (fun _ hm => hm.noSlash) (fun n hn => noSlash_of_mem_names hn) nofun

theorem Selected.ne_nil (hs : ∀ t ∈ s.patternsUsed, Pattern.IsValid t) (h : d.Selected root s q) :
    q ≠ [] := by
  rintro rfl
  have hfile := h.file
  rw [Path.append, List.append_nil, isFile_eq_false_of_isDirectory (h.isDirectory hs)] at hfile
  cases hfile

theorem Selected.congr {s' : Selection} (ht : ∀ t, t ∈ s.patternsUsed ↔ t ∈ s'.patternsUsed)
    (hn : ∀ n, n ∈ s.excludedUsed ↔ n ∈ s'.excludedUsed) (h : d.Selected root s q) :
    d.Selected root s' q where
  derived := h.derived.imp fun t h => ⟨(ht t).1 h.1, h.2⟩
  file := h.file
  kept n hm := mt (hn n).2 (h.kept n hm)

/-- On every tree the candidates are the selected files in strictly ascending order, each once. There
are none if the root is no directory, none come from a pattern that ends in a slash, and how often
or in which order patterns and excluded names are listed does not matter. -/
theorem candidates_iff_selected (root : Path) (hd : d.IsProper)
    (hs : ∀ t ∈ s.patterns, Pattern.IsValid t) :
    ∃ l, d.candidates root s = .ok l ∧ l.Pairwise (· < ·) ∧ (∀ q, q ∈ l ↔ d.Selected root s q) ∧
      (d.isDirectory root = false → l = []) ∧
      (∀ t, Pattern.IsValid t → Pattern.endsInSlash t = true →
        ∀ q ∈ l, ¬ d.Derives root true (Path.ofText t).names [] q) ∧
      ∀ s' : Selection, (∀ t, t ∈ s'.patternsUsed ↔ t ∈ s.patternsUsed) →
        (∀ n, n ∈ s'.excludedUsed ↔ n ∈ s.excludedUsed) → d.candidates root s' = .ok l := by
  have hused := Pattern.isValid_used hs
  obtain ⟨l, hl, hasc, hmem⟩ := candidates_of_valid root hd hused
  refine ⟨l, hl, hasc, hmem, ?_, ?_, ?_⟩
  · intro hroot
    refine List.eq_nil_iff_forall_not_mem.2 fun q hq => ?_
    rw [((hmem q).1 hq).isDirectory hused] at hroot
    cases hroot
  · intro t ht _ q hq h
    have hfile := ((hmem q).1 hq).file
    rw [isFile_eq_false_of_isDirectory (h.isDirectory_of_slash ht.parts)] at hfile
    cases hfile
  · intro s' ht hn
    obtain ⟨l', hl', hasc', hmem'⟩ := candidates_of_valid root hd fun t h =>
      hused t ((ht t).1 h)
    rw [hl']
    refine congrArg Except.ok (hasc'.eq_of_mem_iff hasc fun q => ?_)
    rw [hmem, hmem']
    exact ⟨.congr ht hn, .congr (fun t => (ht t).symm) fun n => (hn n).symm⟩

def linkedTree : Disk where
  entries := [(["src"], .directory), (["src", "a.js"], .file []), (["src", ".b.js"], .file []),
    (["lib"], .link "src"), (["loop"], .link "loop"), (["dist"], .directory),
    (["dist", "c.js"], .file [])]
  here := []

theorem candidates_iff_selected_linked :
    linkedTree.IsProper ∧ (∀ t ∈ ["**/*.js", "lib/?.js", "loop/*"], Pattern.IsValid t) ∧
    linkedTree.Selected ⟨.relative, []⟩ { patterns := ["**/*.js", "lib/?.js", "loop/*"] }
      ["lib", "a.js"] ∧
    ¬ linkedTree.Selected ⟨.relative, []⟩ { patterns := ["**/*.js", "lib/?.js", "loop/*"] }
      ["lib", ".b.js"] ∧
    ¬ linkedTree.Selected ⟨.relative, []⟩ { patterns := ["**/*.js", "lib/?.js", "loop/*"] }
      ["dist", "c.js"] := by
  -- a link is entered by its name and not by `**`, hidden names are found, and a directory is
  -- left out by its name
  have hd : linkedTree.IsProper := isProper_of_keys (by decide) (by decide)
  have hs : ∀ t ∈ ["**/*.js", "lib/?.js", "loop/*"], Pattern.IsValid t := by decide
  have hrun : linkedTree.candidates ⟨.relative, []⟩
      { patterns := ["**/*.js", "lib/?.js", "loop/*"] } =
        .ok [["lib", "a.js"], ["src", ".b.js"], ["src", "a.js"]] := by decide +kernel
  obtain ⟨l, hl, -, hmem, -⟩ := candidates_iff_selected ⟨.relative, []⟩ hd
    (s := { patterns := ["**/*.js", "lib/?.js", "loop/*"] }) hs
  rw [hrun] at hl
  cases hl
  exact ⟨hd, hs, (hmem _).1 (by decide), mt (hmem _).2 (by decide), mt (hmem _).2 (by decide)⟩

end EnvKeeper.Disk
