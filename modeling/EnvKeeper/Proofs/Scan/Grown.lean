import EnvKeeper.Proofs.Additions
import EnvKeeper.Proofs.Reference.Separator
import EnvKeeper.Proofs.Table
import EnvKeeper.Scan

/-! A file that grows by a block of additions. No reference starts in a block, and a file that cannot
be read stays so; so the scan that finds it again reports the same names. -/

namespace EnvKeeper

section Block

variable {names : List String} (hn : ∀ n ∈ names, IsName n.toList)
include hn

theorem Reference.names_lines : Reference.names (Additions.lines names) = [] := by
  refine names_eq_nil fun c hc hm => ?_
  have ho : isNameChar c = false ∧ c ≠ '=' ∧ c ≠ '\n' := by
    simp only [List.mem_cons, List.not_mem_nil, or_false] at hm
    rcases hm with rfl | rfl | rfl <;> decide
  exact Additions.not_mem_lines hn ho hc

theorem Reference.names_block (t : List Char) (tail : List UInt8) :
    Reference.names (unifyLineEnds (t ++ Additions.block tail names)) =
      Reference.names (unifyLineEnds t) := by
  by_cases he : names = []
  · rw [he, Additions.block_nil, List.append_nil]
  have hr : '\r' ∉ Additions.lines names := Additions.not_mem_lines hn (by decide)
  have hself := unifyLineEnds_eq_self hr
  rcases Additions.block_eq tail he with hb | hb
  · rw [hb, names_unifyLineEnds_append t (by rw [hself, names_lines hn])]
  · have hline : unifyLineEnds ('\n' :: Additions.lines names) = '\n' :: Additions.lines names :=
      unifyLineEnds_eq_self (by simpa using hr)
    rw [hb, names_unifyLineEnds_append t]
    have hcut := names_append_separator isSeparator_newline [] (Additions.lines names)
    rw [hline, ← List.nil_append ('\n' :: _), hcut, names_lines hn]
    rfl

end Block

namespace Scanned

/-- The names in a file that holds `bytes`. -/
def namesOf (bytes : List UInt8) : Except Utf8.Fault (List String) :=
  (Utf8.decode bytes).map fun s => Reference.distinctNames (unifyLineEnds s)

theorem ofFile_eq (d : Disk) (root : Path) (q : List String) :
    ofFile d root q =
      ⟨"/".intercalate q, namesOf ((d.bytes? (root.append q)).getD [])⟩ := rfl

theorem namesOf_block {names : List String} (hn : ∀ n ∈ names, IsName n.toList)
    (bytes tail : List UInt8) :
    (namesOf (bytes ++ Utf8.encode (Additions.block tail names))).toOption =
      (namesOf bytes).toOption := by
  unfold namesOf
  cases hd : Utf8.decode bytes with
  | ok t =>
    rw [Utf8.decode_append hd, Except.map, Except.map, Reference.distinctNames,
      Reference.names_block hn]
    rfl
  | error f =>
    obtain ⟨f', hf⟩ := Additions.decode_block_error hd tail names
    rw [hf]
    rfl

theorem isName_of_namesOf {bytes : List UInt8} {names : List String} {n : String}
    (h : namesOf bytes = .ok names) (hn : n ∈ names) : IsName n.toList := by
  unfold namesOf at h
  cases hd : Utf8.decode bytes with
  | error f => rw [hd] at h; cases h
  | ok t =>
    rw [hd] at h
    cases h
    exact Reference.isName_of_mem_names (List.mem_eraseDups.1 hn)

end Scanned

namespace Report

/-- What a file that was scanned adds to the table of files; nothing if it could not be read. -/
def list (t : Table String (List String)) : String × Option (List String) → Table String (List String)
  | (file, some names) => if names.isEmpty then t else t.put file names
  | (_, none) => t

theorem files_take (r : Report) (s : Scanned) :
    (r.take s).files = list r.files (s.file, s.names.toOption) := by
  unfold take
  cases s.names with
  | error f => rfl
  | ok names =>
    simp only [add, Except.toOption, list]
    split <;> rfl

theorem files_foldl (l : List Scanned) (r : Report) :
    (l.foldl take r).files =
      (l.map fun s => (s.file, s.names.toOption)).foldl list r.files := by
  induction l generalizing r with
  | nil => rfl
  | cons s l ih => rw [List.foldl_cons, ih, files_take, List.map_cons, List.foldl_cons]

/-- The files of a report depend on nothing but what could be read. -/
theorem files_ofScanned (root : Path) {l l' : List Scanned}
    (h : l.map (fun s => (s.file, s.names.toOption)) = l'.map fun s => (s.file, s.names.toOption)) :
    (ofScanned root l).files = (ofScanned root l').files := by
  rw [ofScanned, ofScanned, files_foldl, files_foldl, h]

theorem mem_list {t : Table String (List String)} {x : String × Option (List String)}
    {f : String} {names : List String} (h : (f, names) ∈ list t x) :
    (f, names) ∈ t ∨ x = (f, some names) := by
  unfold list at h
  split at h
  · split at h
    · exact .inl h
    · rcases Table.mem_of_mem_put h with he | ht
      · cases he
        exact .inr rfl
      · exact .inl ht
  · exact .inl h

theorem mem_files {l : List Scanned} {r : Report} {f : String} {names : List String}
    (h : (f, names) ∈ (l.foldl take r).files) :
    (f, names) ∈ r.files ∨ ∃ s ∈ l, s.file = f ∧ s.names = .ok names := by
  induction l generalizing r with
  | nil => exact .inl h
  | cons s l ih =>
    rcases ih h with h | ⟨s', hs, h⟩
    · rw [files_take] at h
      rcases mem_list h with h | he
      · exact .inl h
      · obtain ⟨hf, hn⟩ := Prod.mk.injEq _ _ _ _ ▸ he
        refine .inr ⟨s, List.mem_cons_self, hf, ?_⟩
        cases hnames : s.names with
        | error e => rw [hnames] at hn; cases hn
        | ok names' => rw [hnames] at hn; cases hn; rfl
    · exact .inr ⟨s', List.mem_cons_of_mem _ hs, h⟩

theorem isName_of_mem_names {root : Path} {d : Disk} {files : List (List String)} {n : String}
    (h : n ∈ (ofScanned root (files.map (Scanned.ofFile d root))).names) : IsName n.toList := by
  obtain ⟨⟨f, names⟩, hf, hn⟩ := List.mem_flatMap.1 (mem_ascending.1 h)
  rcases mem_files hf with hf | ⟨s, hs, -, hnames⟩
  · cases hf
  · obtain ⟨q, -, rfl⟩ := List.mem_map.1 hs
    exact Scanned.isName_of_namesOf hnames hn

end Report
end EnvKeeper
