import EnvKeeper.Proofs.Disk.Tree
import Mathlib.Data.List.Induction

/-! Disks as a file system holds them: everything lies in a directory, under a name that a path can
say. There a path leads on through real directories as it names them. -/

namespace EnvKeeper

/-- What an entry of a directory may be called. -/
structure IsEntryName (n : String) : Prop where
  ne_empty : n ≠ ""
  ne_dot : n ≠ "."
  ne_up : n ≠ ".."
  noSlash : '/' ∉ n.toList
  noNul : '\x00' ∉ n.toList

theorem isEntryName_iff {n : String} : IsEntryName n ↔
    n ≠ "" ∧ n ≠ "." ∧ n ≠ ".." ∧ '/' ∉ n.toList ∧ '\x00' ∉ n.toList :=
  ⟨fun h => ⟨h.1, h.2, h.3, h.4, h.5⟩, fun h => ⟨h.1, h.2.1, h.2.2.1, h.2.2.2.1, h.2.2.2.2⟩⟩

instance (n : String) : Decidable (IsEntryName n) := decidable_of_iff' _ isEntryName_iff

namespace Disk

structure IsProper (d : Disk) : Prop extends d.IsTree where
  named : ∀ l n, d.at? (l ++ [n]) ≠ none → IsEntryName n

/-- The names lead down from `l` over real directories. -/
def Descends (d : Disk) (l : Location) (names : List String) : Prop :=
  ∀ x, x ≠ [] → x <+: names → d.at? (l ++ x) = some .directory

variable {d : Disk} {l : Location} {n : String} {names : List String} {p : Path} {q : List String}

theorem mem_keys_iff (hl : l ≠ []) : l ∈ d.entries.keys ↔ d.at? l ≠ none := by
  rw [Table.mem_keys, at?, if_neg hl, ne_eq, Option.isSome_iff_ne_none]

/-- Every name on the way to what is there is one that an entry may have. -/
theorem IsProper.isEntryName (hd : d.IsProper) (h : d.at? l ≠ none) : ∀ n ∈ l, IsEntryName n := by
  induction l using List.reverseRecOn with
  | nil => exact fun n hn => absurd hn List.not_mem_nil
  | append_singleton l n ih =>
    have habove := hd.above l n h
    refine List.forall_mem_append.2 ⟨ih (by rw [habove]; nofun), fun m hm => ?_⟩
    rw [List.mem_singleton.1 hm]
    exact hd.named l n h

/-- Whether a disk is proper is seen by going through its entries. -/
theorem isProper_of_keys (hhere : d.at? d.here = some .directory)
    (h : ∀ k ∈ d.entries.keys,
      d.at? k.dropLast = some .directory ∧ ∀ n ∈ k.getLast?, IsEntryName n) : d.IsProper := by
  have hkey (l : Location) (n : String) (hat : d.at? (l ++ [n]) ≠ none) :
      d.at? l = some .directory ∧ IsEntryName n := by
    obtain ⟨hdir, hname⟩ := h _ ((mem_keys_iff (by simp)).2 hat)
    rw [List.dropLast_concat] at hdir
    exact ⟨hdir, hname n (by rw [List.getLast?_concat]; rfl)⟩
  exact ⟨⟨hhere, fun l n hat => (hkey l n hat).1⟩, fun l n hat => (hkey l n hat).2⟩

theorem descends_nil (d : Disk) (l : Location) : d.Descends l [] := by
  intro x hx hpre
  exact absurd (List.prefix_nil.1 hpre) hx

theorem descends_cons :
    d.Descends l (n :: names) ↔ d.at? (l ++ [n]) = some .directory ∧ d.Descends (l ++ [n]) names := by
  constructor
  · intro h
    refine ⟨h [n] (List.cons_ne_nil _ _) ⟨names, rfl⟩, fun x hx hpre => ?_⟩
    rw [List.append_assoc]
    exact h (n :: x) (List.cons_ne_nil _ _) ((List.cons_prefix_cons).2 ⟨rfl, hpre⟩)
  · rintro ⟨hn, h⟩ x hx hpre
    obtain ⟨y, rfl⟩ : ∃ y, x = n :: y := by
      obtain ⟨m, y, rfl⟩ := List.exists_cons_of_ne_nil hx
      exact ⟨y, by rw [(List.cons_prefix_cons.1 hpre).1]⟩
    by_cases hy : y = []
    · rw [hy]
      exact hn
    · rw [List.append_cons]
      exact h y hy (List.cons_prefix_cons.1 hpre).2

theorem Descends.isEntryName (h : d.Descends l names) (hd : d.IsProper) :
    ∀ n ∈ names, IsEntryName n := by
  induction names generalizing l with
  | nil => exact fun n hn => absurd hn List.not_mem_nil
  | cons m names ih =>
    obtain ⟨hm, h⟩ := descends_cons.1 h
    intro n hn
    rcases List.mem_cons.1 hn with rfl | hn
    · exact hd.named l n (by rw [hm]; nofun)
    · exact ih h n hn

/-- From where a path leads, more names lead on. -/
theorem resolve_append (h : d.resolve (p.append q) = .directory l)
    (hnul : ∀ n ∈ names, '\x00' ∉ n.toList) :
    ∃ k, d.resolve (p.append (q ++ names)) = d.walk false k l names := by
  have hmore : (p.append (q ++ names)).hasNul = (p.append q).hasNul := by
    have hnone : (names.any fun n => n.toList.contains '\x00') = false := by
      simpa using hnul
    simp only [Path.hasNul, Path.append, ← List.append_assoc]
    rw [List.any_append, hnone, Bool.or_false]
  have hnames : (p.append (q ++ names)).names = (p.append q).names ++ names := by
    simp only [Path.append, List.append_assoc]
  unfold resolve at h ⊢
  rw [hmore, hnames]
  split at h
  · cases h
  · next hq =>
    rw [if_neg hq]
    exact walk_append_eq h names

theorem walk_descends (h : d.Descends l names) (hd : d.IsProper) (k : Nat) :
    d.walk false k l names = .directory (l ++ names) := by
  induction names generalizing l with
  | nil => rw [walk_nil, List.append_nil]
  | cons n names ih =>
    have hn := h.isEntryName hd n List.mem_cons_self
    obtain ⟨hat, h⟩ := descends_cons.1 h
    rw [walk_cons_directory ⟨⟨hn.ne_empty, hn.ne_dot⟩, hn.ne_up⟩ hat, ih h, List.append_assoc]
    rfl

theorem resolve_descends (hd : d.IsProper) (h : d.resolve (p.append q) = .directory l)
    (hn : d.Descends l names) : d.resolve (p.append (q ++ names)) = .directory (l ++ names) := by
  obtain ⟨k, hk⟩ := resolve_append h fun n hm => (hn.isEntryName hd n hm).noNul
  rw [hk, walk_descends hn hd]

end Disk
end EnvKeeper
