import EnvKeeper.Glob.Select
import EnvKeeper.Proofs.Disk.Rewrite

/-! A file that gets new bytes. The files that a selection picks are the same: patterns ask what is
there and of which kind, and not what it holds. -/

namespace EnvKeeper

namespace Table

variable {κ α : Type} [DecidableEq κ]

theorem keys_put_of_mem {t : Table κ α} {k : κ} (a : α) (h : k ∈ t.keys) :
    (t.put k a).keys = t.keys := by
  rw [keys_put, if_pos h]

theorem filter_put {t : Table κ α} {k : κ} {a b : α} {p : κ × α → Bool} (h : t.get? k = some a)
    (ha : p (k, a) = false) (hb : p (k, b) = false) : (t.put k b).filter p = t.filter p := by
  induction t with
  | nil => cases h
  | cons x t ih =>
    obtain ⟨j, c⟩ := x
    unfold get? at h
    unfold put
    split
    · next hj =>
      rw [if_pos hj] at h
      cases h
      rw [List.filter_cons, List.filter_cons, hj, ha, hb]
      rfl
    · next hj =>
      rw [if_neg hj] at h
      rw [List.filter_cons, List.filter_cons, ih h]

end Table

namespace Disk

variable {d : Disk} {l : Location} {old : List UInt8} (h : d.at? l = some (.file old))
  (new : List UInt8)
include h

theorem get?_of_at?_file : d.entries.get? l = some (.file old) := by
  unfold at? at h
  rwa [if_neg (ne_nil_of_at?_file h)] at h

theorem keys_put_file : (d.put l (.file new)).entries.keys = d.entries.keys := by
  refine Table.keys_put_of_mem _ (Table.mem_keys.2 ?_)
  rw [get?_of_at?_file h]
  rfl

theorem isDirectory_put_file (p : Path) :
    (d.put l (.file new)).isDirectory p = d.isDirectory p := by
  rw [isDirectory, isDirectory, resolve_put_file h]
  cases d.resolve p <;> rfl

theorem isFile_put_file (p : Path) : (d.put l (.file new)).isFile p = d.isFile p := by
  rw [isFile, isFile, bytes?, bytes?, resolve_put_file h]
  cases d.resolve p <;> rfl

theorem isThere_put_file (p : Path) : (d.put l (.file new)).isThere p = d.isThere p := by
  rw [isThere, isThere, isFile_put_file h, isDirectory_put_file h]

theorem namesIn_put_file (p : Path) : (d.put l (.file new)).namesIn p = d.namesIn p := by
  rw [namesIn, namesIn, resolve_put_file h]
  cases d.resolve p with
  | directory m => simp only [Target.rewrite, namesAt, keys_put_file h]
  | _ => rfl

theorem areDirectories_put_file (m : Location) (names : List String) :
    (d.put l (.file new)).areDirectories m names = d.areDirectories m names := by
  induction names generalizing m with
  | nil => rfl
  | cons n names ih =>
    rw [areDirectories, areDirectories, ih, at?_put d _ _ (ne_nil_of_at?_file h)]
    by_cases hm : l = m ++ [n]
    · subst hm
      rw [if_pos rfl, h]
      rfl
    · rw [if_neg hm]

theorem descentsIn_put_file (p : Path) : (d.put l (.file new)).descentsIn p = d.descentsIn p := by
  have hd (m : Location) : (d.put l (.file new)).descents m = d.descents m := by
    unfold descents
    simp only [areDirectories_put_file h]
    rw [put, Table.filter_put (get?_of_at?_file h) rfl rfl]
  rw [descentsIn, descentsIn, resolve_put_file h]
  cases d.resolve p with
  | directory m => exact hd m
  | _ => rfl

theorem extend_put_file (root : Path) (isLast : Bool) (q : List String) (part : Part) :
    (d.put l (.file new)).extend root isLast q part = d.extend root isLast q part := by
  cases part with
  | name n => simp only [extend, isThere_put_file h, isDirectory_put_file h]
  | wild tokens => simp only [extend, namesIn_put_file h, isDirectory_put_file h]
  | anyDepth => simp only [extend, descentsIn_put_file h]
  | slash => rfl

theorem expand_put_file (root : Path) (ps : Pattern) (qs : List (List String)) :
    (d.put l (.file new)).expand root ps qs = d.expand root ps qs := by
  induction ps generalizing qs with
  | nil => rfl
  | cons part ps ih =>
    cases part with
    | anyDepth => simp only [expand, extend_put_file h, ih]
    | name | wild | slash => simp only [expand, extend_put_file h, ih]

theorem candidates_put_file (root : Path) (s : Selection) :
    (d.put l (.file new)).candidates root s = d.candidates root s := by
  have hs : (d.put l (.file new)).select root = d.select root := by
    funext pattern
    rw [select, select, isDirectory_put_file h, expand_put_file h]
  simp only [candidates, hs, isFile_put_file h]

end Disk
end EnvKeeper
