import EnvKeeper.Proofs.Ascending
import EnvKeeper.Proofs.Disk.Filled
import EnvKeeper.Proofs.Glob.Derives
import Mathlib.Data.List.Sort

/-! A file that is made at a vacant place. A selection picks the files that it picked before, and
besides them none but that file, be it by several paths. -/

namespace EnvKeeper.Disk

variable {d : Disk} {m : Location} {q r c : List String} {root p : Path} {n : String}

theorem mem_namesIn_put_new {bytes : List UInt8} (h : d.at? (m ++ [n]) = none) {x : String} :
    x ∈ (d.put (m ++ [n]) (.file bytes)).namesIn p ↔
      x ∈ d.namesIn p ∨ d.resolve p = .directory m ∧ x = n := by
  simp only [mem_namesIn, resolve_directory_put_new h]
  have hat (k : Location) : (d.put (m ++ [n]) (.file bytes)).at? (k ++ [x]) ≠ none ↔
      d.at? (k ++ [x]) ≠ none ∨ k = m ∧ x = n := by
    rw [at?_put d _ _ (ne_nil_of_at?_none h)]
    by_cases hk : m ++ [n] = k ++ [x]
    · rw [if_pos hk]
      obtain ⟨rfl, hx⟩ := List.append_inj' hk rfl
      exact iff_of_true nofun (.inr ⟨rfl, (List.singleton_inj.1 hx).symm⟩)
    · rw [if_neg hk]
      refine (or_iff_left ?_).symm
      rintro ⟨rfl, rfl⟩
      exact hk rfl
  simp only [hat, and_or_left, exists_or]
  refine or_congr_right ⟨?_, fun ⟨hm, hx⟩ => ⟨m, hm, rfl, hx⟩⟩
  rintro ⟨k, hk, rfl, hx⟩
  exact ⟨hk, hx⟩

section

variable (h : d.at? (m ++ [n]) = none) (hn : (n ≠ "" ∧ n ≠ ".") ∧ n ≠ "..") (bytes : List UInt8)
include h

theorem descentsIn_put_new {names : List String} :
    names ∈ (d.put (m ++ [n]) (.file bytes)).descentsIn p ↔ names ∈ d.descentsIn p := by
  simp only [mem_descentsIn, descends_put_new h, resolve_directory_put_new h]

theorem isFile_put_new (hp : d.isFile p = true) :
    (d.put (m ++ [n]) (.file bytes)).isFile p = true := by
  rw [isFile, bytes?_put_new h bytes hp]
  exact hp

include hn

/-- A part goes on as before to what may be gone on from, and to files that were there. -/
theorem mem_extend_put_new {isLast : Bool} (part : Part)
    (hc : isLast = true → d.isFile (root.append c) = true) :
    c ∈ (d.put (m ++ [n]) (.file bytes)).extend root isLast q part ↔
      c ∈ d.extend root isLast q part := by
  cases part with
  | name x =>
    simp only [extend, List.mem_ite_nil_right, List.mem_singleton]
    refine and_congr_left fun hx => ?_
    cases isLast with
    | false => simp only [Bool.false_eq_true, if_false, isDirectory_put_new h]
    | true =>
      have hfile := hc rfl
      rw [hx] at hfile
      simp only [if_true, isThere, isFile_put_new h bytes hfile, hfile, Bool.true_or]
  | wild tokens =>
    simp only [extend, List.mem_map, List.mem_filter, mem_namesIn_put_new h, isDirectory_put_new h]
    refine exists_congr fun x => and_congr_left fun hx => and_congr_left fun hrest => ?_
    -- the new name leads to no directory, and not to a file that was there
    refine or_iff_left ?_
    rintro ⟨hm, rfl⟩
    have habsent := isThere_eq_false hm h hn
    obtain ⟨hfile, hdirectory⟩ := Bool.or_eq_false_iff.1 habsent
    obtain ⟨-, hrest⟩ := Bool.and_eq_true_iff.1 hrest
    cases isLast with
    | false =>
      rw [hdirectory] at hrest
      cases hrest
    | true =>
      rw [← hx, hfile] at hc
      cases hc rfl
  | anyDepth => simp only [extend, List.mem_map, descentsIn_put_new h]
  | slash => rfl

theorem mem_expand_put_new (hr : d.isFile (root.append r) = true) {ps : Pattern} :
    r ∈ (d.put (m ++ [n]) (.file bytes)).expand root ps [q] ↔ r ∈ d.expand root ps [q] := by
  induction ps generalizing q with
  | nil => rfl
  | cons part ps ih =>
    simp only [mem_expand_cons, List.mem_singleton, exists_eq_left, ih]
    refine exists_congr fun c => and_congr_left fun hc => mem_extend_put_new h hn bytes part ?_
    intro hlast
    rw [List.isEmpty_iff.1 hlast, expand, List.mem_singleton] at hc
    rwa [← hc]

/-- The candidates that were files before are the candidates that were found before. -/
theorem candidates_put_new {s : Selection} {files : List (List String)}
    (hfiles : d.candidates root s = .ok files) :
    ∃ files', (d.put (m ++ [n]) (.file bytes)).candidates root s = .ok files' ∧
      files'.filter (fun q => d.isFile (root.append q)) = files := by
  have hselect (r : List String) (ps : Pattern) (hr : d.isFile (root.append r) = true) :
      r ∈ (d.put (m ++ [n]) (.file bytes)).select root ps ↔ r ∈ d.select root ps := by
    rw [select, select, isDirectory_put_new h]
    split
    · exact mem_expand_put_new h hn bytes hr
    · rfl
  unfold candidates at hfiles ⊢
  obtain ⟨ps, hps, hfiles⟩ := bind_eq_ok hfiles
  cases hfiles
  refine ⟨_, by rw [hps]; rfl, ?_⟩
  refine ((pairwise_ascending _).filter _).eq_of_mem_iff (pairwise_ascending _) fun r => ?_
  simp only [List.mem_filter, mem_ascending, List.mem_flatMap, Bool.and_eq_true]
  constructor
  · rintro ⟨⟨⟨ps, hps, hr⟩, -, hkept⟩, hfile⟩
    exact ⟨⟨ps, hps, (hselect r ps hfile).1 hr⟩, hfile, hkept⟩
  · rintro ⟨⟨ps, hps, hr⟩, hfile, hkept⟩
    exact ⟨⟨⟨ps, hps, (hselect r ps hfile).2 hr⟩, isFile_put_new h bytes hfile, hkept⟩, hfile⟩

end

theorem candidates_error {d' : Disk} {s : Selection} {e : PatternError}
    (h : d.candidates root s = .error e) : d'.candidates root s = .error e := by
  unfold candidates at h ⊢
  cases hps : s.patternsUsed.mapM Pattern.read with
  | error e' =>
    rw [hps] at h
    cases h
    rfl
  | ok ps =>
    rw [hps] at h
    cases h

end EnvKeeper.Disk
