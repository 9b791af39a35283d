import EnvKeeper.Proofs.Disk.Fresh
import EnvKeeper.Proofs.Store.Growth

/-! A store is made with all directories on the way to it, or nothing is made. -/

namespace EnvKeeper

namespace Disk

variable {d e : Disk} {p q : Path} {l m : Location}

theorem resolve_onWay (h : (d.resolve p).Arrives) (hq : q.IsOnWay p) :
    ∃ m, d.resolve q = .directory m := by
  obtain ⟨behind, hnames⟩ := hq.names
  have hbehind : behind ≠ [] := fun he => hq.proper (by rw [← hnames, he, List.append_nil])
  have hnul : p.hasNul = false := by
    cases hn : p.hasNul with
    | false => rfl
    | true => exact absurd (by rw [resolve, if_pos hn]) (h .nul)
  rw [resolve, hnul, ← hnames] at h
  rw [resolve, hasNul_mono hq.names hnul, start, hq.anchor]
  exact walk_append hbehind h

theorem resolve_slot (hs : e.slot? q = some m) (hat : e.at? m = some .directory)
    (hdown : q.GoesDown) (hnul : q.hasNul = false) : e.resolve q = .directory m := by
  unfold slot? at hs
  split at hs
  · next k n hparent hlast =>
    cases hs
    exact resolve_child_directory hparent hlast hnul (hdown.last hlast) hat
  · cases hs

/-- A path that leads to a new directory led nowhere before. -/
theorem isThere_of_new (ht : d.IsTree) (hkeeps : d.Keeps e) (hm : d.at? m = none)
    (hq : e.resolve q = .directory m) : d.isThere q = false := by
  rw [isThere, Bool.or_eq_false_iff]
  constructor
  · rw [Bool.eq_false_iff]
    intro hfile
    obtain ⟨k, b, hk⟩ := isFile_iff.1 hfile
    obtain ⟨b', hb'⟩ := resolve_file_keeps hkeeps hk
    rw [hq] at hb'
    cases hb'
  · rw [Bool.eq_false_iff]
    intro hdir
    obtain ⟨k, hk⟩ := isDirectory_iff.1 hdir
    have hsame := resolve_directory_keeps hkeeps hk
    rw [hq] at hsame
    cases hsame
    have hstands := resolve_stands ht q
    rw [hk, Target.Stands, hm] at hstands
    cases hstands

/-- What changes when directories are made for a path: those on the way to it that were missing. -/
theorem changed_of_made (ht : d.IsTree) (hdown : p.GoesDown) (hnul : p.hasNul = false)
    (h : Made p.parent d e) (hm : e.at? m ≠ d.at? m) :
    d.at? m = none ∧ e.at? m = some .directory ∧
      ∃ q : Path, q.IsOnWay p ∧ d.isThere q = false ∧ e.resolve q = .directory m := by
  have hgrown := grown_made h
  have hnone : d.at? m = none := by
    cases hd : d.at? m with
    | none => rfl
    | some x =>
      cases x with
      | file b => exact absurd (by simpa [nowhere, hd] using hgrown.file m b hd) hm
      | link t => exact absurd ((hgrown.keeps.link m t hd).trans hd.symm) hm
      | directory => exact absurd ((hgrown.keeps.directory m hd).trans hd.symm) hm
  obtain ⟨x, hx⟩ : ∃ x, e.at? m = some x := Option.ne_none_iff_exists'.1 (hnone ▸ hm)
  rcases hgrown.fresh m x hnone hx with ⟨rfl, -⟩ | ⟨rfl, _, q, rfl, hq, hslot⟩
  · -- a file that was not there before, but only directories were made
    have hd := at?_of_made h hx (by simp)
    rw [hnone] at hd
    cases hd
  · have hresolve := resolve_slot hslot hx (hdown.mono hq.names) (hasNul_mono hq.names hnul)
    exact ⟨hnone, hx, q, hq, isThere_of_new ht hgrown.keeps hnone hresolve, hresolve⟩

/-- From `d` to `e` a file with `bytes` was made for `p` at the vacant place `l`, and with it the
directories on the way to `p` that were missing. All else is as it was. -/
structure Creates (d e : Disk) (p : Path) (l : Location) (bytes : List UInt8) : Prop where
  vacant : d.at? l = none
  file : e.resolve p = .file l bytes
  onWay : ∀ q : Path, q.IsOnWay p → e.isDirectory q = true
  other : ∀ m, m ≠ l → e.at? m ≠ d.at? m → d.at? m = none ∧ e.at? m = some .directory ∧
    ∃ q : Path, q.IsOnWay p ∧ d.isThere q = false ∧ e.resolve q = .directory m
  here : e.here = d.here

theorem creates_put (ht : d.IsTree) (hdown : p.GoesDown) (hnul : p.hasNul = false)
    (h : Made p.parent d e) (hp : e.resolve p = .vacant l) (bytes : List UInt8) :
    Creates d (e.put l (.file bytes)) p l bytes := by
  have hvacant := at?_of_vacant hp
  have hput (m : Location) := at?_put e m (.file bytes) (ne_nil_of_at?_none hvacant)
  have hkeeps := keeps_put_new hvacant bytes
  have hfile : (e.put l (.file bytes)).resolve p = .file l bytes :=
    resolve_vacant_keeps hkeeps hp (by rw [hput, if_pos rfl])
  refine ⟨(keeps_made h).at?_none hvacant, hfile, fun q hq => ?_, fun m hm hchanged => ?_,
    (keeps_made h).here⟩
  · exact isDirectory_iff.2 (resolve_onWay (by rw [hfile]; nofun) hq)
  · rw [hput, if_neg (Ne.symm hm)] at hchanged ⊢
    obtain ⟨hnone, hdir, q, hq, hmissing, hresolve⟩ := changed_of_made ht hdown hnul h hchanged
    exact ⟨hnone, hdir, q, hq, hmissing, resolve_directory_keeps hkeeps hresolve⟩

end Disk

namespace Store

variable {s : Store} {d e : Disk}

theorem Ensured.ok_true_iff {r : Except Failure Bool} (h : s.Ensured d r e) :
    r = .ok true ↔ ∃ l b, d.resolve s.path = .file l b := by
  rw [← Disk.isFile_iff]
  cases h with
  | there h => exact iff_of_true rfl h
  | blocked h | refused h | made h => exact iff_of_false nofun (Bool.eq_false_iff.1 h)

theorem Ensured.of_true (h : s.Ensured d (.ok true) e) : e = d := by
  cases h
  rfl

section Whole

variable (ht : d.IsTree) (hdown : s.path.GoesDown) (hnul : s.path.hasNul = false)
include ht hdown hnul

theorem parent_whole : Disk.MadeWhole d s.path.parent (d.makeDirectories s.path.parent).1
    (d.makeDirectories s.path.parent).2 :=
  Disk.makeDirectories_whole ht (hdown.mono (List.dropLast_prefix _)) (Disk.hasNul_parent hnul)

/-- Where a store cannot be made, nothing was made, and there is no place for it to be written to. -/
theorem Ensured.of_error {x : Failure} (h : s.Ensured d (.error x) e) :
    e = d ∧ (d.resolve s.path).place? = none ∧ ∃ cause path, x = .disk (.refused cause path) := by
  have hwhole := parent_whole ht hdown hnul
  have hrefused {y : DiskError} (hy : y ≠ .nul) :
      ∃ cause path, Failure.disk y = .disk (.refused cause path) := by
    cases y with
    | nul => exact absurd rfl hy
    | refused cause path => exact ⟨cause, path, rfl⟩
  cases h with
  | blocked hthere hmade =>
    rw [hmade] at hwhole
    cases hwhole with
    | failed he => exact ⟨rfl, Disk.place?_of_parent (Disk.makeDirectories_error hmade), hrefused he⟩
  | refused hthere hmade hwrite =>
    have hplace := Disk.update_error_iff.1 ⟨_, hwrite⟩
    have hx := hrefused fun he => Disk.update_ne_nul hnul _ (hwrite.trans (congrArg _ he))
    rw [hmade] at hwhole
    cases hwhole with
    | there _ => exact ⟨rfl, hplace, hx⟩
    | fresh hfresh =>
      -- nothing is refused in a directory that was just made
      obtain ⟨l, hl⟩ := Disk.vacant_of_fresh hfresh hdown hnul
      rw [hl] at hplace
      cases hplace

theorem Ensured.of_false (h : s.Ensured d (.ok false) e) :
    ∃ l, d.Creates e s.path l (Utf8.encode header) := by
  have hwhole := parent_whole ht hdown hnul
  have hmadeall := d.makeDirectories_made s.path.parent
  cases h with
  | @made d₁ _ hthere hmade hwrite =>
    rw [hmade] at hwhole hmadeall
    simp only at hwhole hmadeall
    have hvacant : ∃ l, d₁.resolve s.path = .vacant l := by
      cases hwhole with
      | fresh hfresh => exact Disk.vacant_of_fresh hfresh hdown hnul
      | there _ =>
        obtain ⟨l, old, hplace, -⟩ := Disk.update_ok hwrite
        rcases hplace with hfile | ⟨hvacant, -⟩
        · rw [s.isThere_of_resolve hfile] at hthere
          cases hthere
        · exact ⟨l, hvacant⟩
    obtain ⟨l, hl⟩ := hvacant
    rw [Disk.replace, Disk.update_vacant hl] at hwrite
    cases hwrite
    exact ⟨l, Disk.creates_put ht hdown hnul hmadeall hl _⟩

end Whole

end Store
end EnvKeeper
