import EnvKeeper.Proofs.Ascending
import EnvKeeper.Proofs.Table
import EnvKeeper.Report
import Mathlib.Data.List.Sort

/-! A report to which files are added in turn. The first add of a file gives its place and the last one
its names, adds without names being ignored. All names are always taken from what is listed, so names
that a later add has replaced are gone. -/

namespace EnvKeeper.Report

def addAll (r : Report) (adds : List (String × List String)) : Report :=
  adds.foldl (fun r (path, names) => r.add path names) r

/-- The adds that have names. -/
def filled (adds : List (String × List String)) : List (String × List String) :=
  adds.filter (!·.2.isEmpty)

/-- The report lists just what was added. -/
structure Shows (adds : List (String × List String)) (r : Report) : Prop where
  order : IsFirstSeen ((filled adds).map Prod.fst) r.files.keys
  last : ∀ path,
    r.files.get? path = ((filled adds).filter (·.1 = path)).getLast?.map Prod.snd
  named : ∀ x ∈ r.files, x.2 ≠ []
  ascending : r.names.Pairwise (· < ·)
  names : ∀ n, n ∈ r.names ↔ ∃ path names, r.files.get? path = some names ∧ n ∈ names
  empty : r.files = [] ↔ r.names = []

variable {r : Report} {adds : List (String × List String)} {root : String}

theorem addAll_eq (r : Report) (adds : List (String × List String)) :
    r.addAll adds = { r with files := r.files.update (filled adds) } := by
  induction adds generalizing r with
  | nil => rfl
  | cons p adds ih =>
    obtain ⟨path, names⟩ := p
    refine (ih (r.add path names)).trans ?_
    cases names <;> rfl

theorem mem_names (hr : r.files.keys.Nodup) {n : String} :
    n ∈ r.names ↔ ∃ path names, r.files.get? path = some names ∧ n ∈ names := by
  rw [Report.names, mem_ascending, List.mem_flatMap]
  constructor
  · rintro ⟨⟨path, names⟩, hx, hn⟩
    exact ⟨path, names, Table.get?_of_mem hr hx, hn⟩
  · rintro ⟨path, names, hget, hn⟩
    exact ⟨(path, names), Table.mem_of_get? hget, hn⟩

theorem names_eq_nil (hr : ∀ x ∈ r.files, x.2 ≠ []) : r.names = [] ↔ r.files = [] := by
  constructor
  · intro hnames
    refine List.eq_nil_iff_forall_not_mem.2 fun x hx => ?_
    obtain ⟨n, hn⟩ := List.exists_mem_of_ne_nil _ (hr x hx)
    have hmem : n ∈ r.names := mem_ascending.2 (List.mem_flatMap.2 ⟨x, hx, hn⟩)
    rw [hnames] at hmem
    cases hmem
  · intro hfiles
    rw [Report.names, hfiles]
    rfl

theorem names_of_same_lists {r' : Report} (hr : r.files.keys.Nodup) (hr' : r'.files.keys.Nodup)
    (h : ∀ path, r'.files.get? path = r.files.get? path) : r'.names = r.names := by
  refine (pairwise_ascending _).eq_of_mem_iff (pairwise_ascending _) fun n => ?_
  refine (mem_names hr').trans (Iff.trans ?_ (mem_names hr).symm)
  simp only [h]

theorem get?_addAll (path : String) :
    (addAll { root } adds).files.get? path =
      ((filled adds).filter (·.1 = path)).getLast?.map Prod.snd := by
  rw [addAll_eq]
  exact Table.get?_update_nil (filled adds) path

theorem nodup_keys_addAll : (addAll { root } adds).files.keys.Nodup := by
  rw [addAll_eq]
  exact (Table.isFirstSeen_keys_update (filled adds)).nodup

theorem shows_addAll : Shows adds (addAll { root } adds) := by
  have hnamed : ∀ x ∈ (addAll { root } adds).files, x.2 ≠ [] := by
    intro x hx
    rw [addAll_eq] at hx
    have hfilled := (Table.mem_of_mem_update hx).resolve_left List.not_mem_nil
    simpa using (List.mem_filter.1 hfilled).2
  have horder : IsFirstSeen ((filled adds).map Prod.fst) (addAll { root } adds).files.keys := by
    rw [addAll_eq]
    exact Table.isFirstSeen_keys_update (filled adds)
  exact ⟨horder, get?_addAll, hnamed, pairwise_ascending _,
    fun _ => mem_names horder.nodup, (names_eq_nil hnamed).symm⟩

/-- The order among adds of different files is not seen in what each file has. -/
theorem get?_addAll_perm (root : String) {l l' : List (String × List String)}
    (before after : List (String × List String)) (h : l.Perm l') (hl : (l.map Prod.fst).Nodup)
    (path : String) :
    (addAll { root } (before ++ l' ++ after)).files.get? path =
      (addAll { root } (before ++ l ++ after)).files.get? path := by
  have hfilled : (filled l').filter (·.1 = path) = (filled l).filter (·.1 = path) :=
    Table.filter_key_perm (h.filter _) (hl.sublist (List.filter_sublist.map _)) path
  rw [get?_addAll, get?_addAll]
  simp only [filled, List.filter_append] at hfilled ⊢
  rw [hfilled]

/-- What a fresh report lists after any series of adds, and nothing else in it has changed. Adds of
different files that follow each other can be made in any order: each file has the same names, and
all names are the same. -/
theorem addAll_shows (root : String) (adds : List (String × List String)) :
    Shows adds (addAll { root } adds) ∧
      (addAll { root } adds).document = .table [("root", .text root), ("files_scanned", .number 0),
        ("files", .table ((addAll { root } adds).files.map fun (path, names) => (path, .texts names))),
        ("env_vars", .texts (addAll { root } adds).names), ("errors", .list [])] ∧
      ∀ before l l' after, adds = before ++ l ++ after → l.Perm l' → (l.map Prod.fst).Nodup →
        (addAll { root } (before ++ l' ++ after)).names = (addAll { root } adds).names ∧
          ∀ path, (addAll { root } (before ++ l' ++ after)).files.get? path =
            (addAll { root } adds).files.get? path := by
  refine ⟨shows_addAll, ?_, ?_⟩
  · have hrest : (addAll { root } adds).root = root ∧ (addAll { root } adds).scanned = 0 ∧
        (addAll { root } adds).errors = [] := by
      rw [addAll_eq]
      exact ⟨rfl, rfl, rfl⟩
    rw [Report.document, hrest.1, hrest.2.1, hrest.2.2]
    rfl
  · rintro before l l' after rfl h hl
    have hget := get?_addAll_perm root before after h hl
    exact ⟨names_of_same_lists nodup_keys_addAll nodup_keys_addAll hget, hget⟩

theorem addAll_shows_replaced :
    [("a.js", ["W"]), ("b.js", ["Y", "Y"])].Perm [("b.js", ["Y", "Y"]), ("a.js", ["W"])] ∧
    ([("a.js", ["W"]), ("b.js", ["Y", "Y"])].map Prod.fst).Nodup ∧
    (addAll {} ([("b.js", ["X", "Y"]), ("a.js", ["Z"])] ++ [("b.js", ["Y", "Y"]), ("a.js", ["W"])] ++
      [("b.js", [])])).names = ["W", "Y"] := by
  -- a file is added again before or after another one: the name that only its first add had is
  -- gone
  have hperm : [("a.js", ["W"]), ("b.js", ["Y", "Y"])].Perm [("b.js", ["Y", "Y"]), ("a.js", ["W"])] :=
    .swap _ _ _
  have hnodup : ([("a.js", ["W"]), ("b.js", ["Y", "Y"])].map Prod.fst).Nodup := by decide
  obtain ⟨-, -, hany⟩ := addAll_shows "." ([("b.js", ["X", "Y"]), ("a.js", ["Z"])] ++
    [("a.js", ["W"]), ("b.js", ["Y", "Y"])] ++ [("b.js", [])])
  obtain ⟨hnames, -⟩ := hany _ _ _ _ rfl hperm hnodup
  refine ⟨hperm, hnodup, ?_⟩
  rw [hnames]
  decide

end EnvKeeper.Report
