import EnvKeeper.Proofs.Disk.Filled
import EnvKeeper.Proofs.Disk.Grown

/-! Directories are made all or none. Below the first one that is made everything is new and empty, so
for a path that only goes down nothing can stand in the way of the next one, nor of a file in the
last. -/

namespace EnvKeeper

/-- Every name of the path is looked up where the one before it leads. -/
def Path.GoesDown (p : Path) : Prop := ∀ n ∈ p.names, (n ≠ "" ∧ n ≠ ".") ∧ n ≠ ".."

theorem Path.GoesDown.mono {p q : Path} (h : p.GoesDown) (hq : q.names <+: p.names) : q.GoesDown :=
  fun n hn => h n (hq.subset hn)

theorem Path.GoesDown.last {p : Path} {n : String} (h : p.GoesDown)
    (hlast : p.names.getLast? = some n) : (n ≠ "" ∧ n ≠ ".") ∧ n ≠ ".." :=
  h n (List.mem_of_getLast? hlast)

namespace Disk

variable {d d₁ e : Disk} {p q : Path} {l m : Location} {n : String}

/-- From `d` to `e` the path has come to lead to a directory that is new and empty. -/
def Fresh (d e : Disk) (p : Path) : Prop :=
  p.names ≠ [] ∧ ∃ l, e.resolve p = .directory l ∧ d.at? l = none ∧ ∀ n, e.at? (l ++ [n]) = none

theorem resolve_child (hparent : d.resolve p.parent = .directory l)
    (hlast : p.names.getLast? = some n) (hnul : p.hasNul = false) :
    ∃ k, d.resolve p = d.walk false k l [n] := by
  obtain ⟨above, hnames⟩ := List.getLast?_eq_some_iff.1 hlast
  have hp : p.parent.append ([] ++ [n]) = p := by
    rw [Path.append, Path.parent, List.nil_append, hnames, List.dropLast_concat, ← hnames]
  have hn : ∀ m ∈ [n], '\x00' ∉ m.toList := by
    intro m hm
    rw [List.mem_singleton.1 hm]
    simpa using List.any_eq_false.1 hnul n (by rw [hnames]; simp)
  have h : d.resolve (p.parent.append []) = .directory l := by
    rwa [Path.append, List.append_nil]
  obtain ⟨k, hk⟩ := resolve_append h hn
  rw [hp] at hk
  exact ⟨k, hk⟩

theorem resolve_child_vacant (hparent : d.resolve p.parent = .directory l)
    (hlast : p.names.getLast? = some n) (hnul : p.hasNul = false)
    (hn : (n ≠ "" ∧ n ≠ ".") ∧ n ≠ "..") (hat : d.at? (l ++ [n]) = none) :
    d.resolve p = .vacant (l ++ [n]) := by
  obtain ⟨k, hk⟩ := resolve_child hparent hlast hnul
  rw [hk, walk_cons hn, hat]
  rfl

theorem resolve_child_directory (hparent : d.resolve p.parent = .directory l)
    (hlast : p.names.getLast? = some n) (hnul : p.hasNul = false)
    (hn : (n ≠ "" ∧ n ≠ ".") ∧ n ≠ "..") (hat : d.at? (l ++ [n]) = some .directory) :
    d.resolve p = .directory (l ++ [n]) := by
  obtain ⟨k, hk⟩ := resolve_child hparent hlast hnul
  rw [hk, walk_cons_directory hn hat, walk_nil]

/-- A directory that was made is new and empty, for its place was vacant and nothing lies below that. -/
theorem fresh_of_makeDirectory (ht : d₁.IsTree) (hkeeps : d.Keeps d₁) (hdown : p.GoesDown)
    (hnul : p.hasNul = false) (hm : d₁.makeDirectory p = .ok e) : Fresh d e p := by
  obtain ⟨l, n, hlast, -, hparent, hvacant, rfl⟩ := makeDirectory_ok hm
  have hne := ne_nil_of_at?_none hvacant
  have hkeeps' : d₁.Keeps (d₁.put (l ++ [n]) .directory) := keeps_put hne (.inl hvacant)
  have hnames : p.names ≠ [] := fun he => by rw [he] at hlast; cases hlast
  refine ⟨hnames, l ++ [n], ?_, hkeeps.at?_none hvacant, fun m => ?_⟩
  · refine resolve_child_directory (resolve_directory_keeps hkeeps' hparent) hlast hnul
      (hdown.last hlast) ?_
    rw [at?_put _ _ _ hne, if_pos rfl]
  · rw [at?_put _ _ _ hne, if_neg (by simp)]
    exact ht.below (by rw [hvacant]; nofun) [m] (List.cons_ne_nil _ _)

theorem makeDirectory_of_fresh (h : Fresh d d₁ p.parent) (hlast : p.names.getLast? = some n)
    (hnul : p.hasNul = false) (hup : n ≠ "..") : ∃ e, d₁.makeDirectory p = .ok e := by
  obtain ⟨-, l, hparent, -, hempty⟩ := h
  refine ⟨d₁.put (l ++ [n]) .directory, ?_⟩
  simp only [makeDirectory, hnul, hlast, hparent, hempty n, Bool.false_eq_true, if_false, if_neg hup,
    Option.isSome_none]

theorem vacant_of_fresh (h : Fresh d e p.parent) (hdown : p.GoesDown) (hnul : p.hasNul = false) :
    ∃ l, e.resolve p = .vacant l := by
  obtain ⟨hnames, l, hparent, -, hempty⟩ := h
  have hp : p.names ≠ [] := fun he => hnames (by rw [Path.parent, he]; rfl)
  have hlast := List.getLast?_eq_some_getLast hp
  exact ⟨_, resolve_child_vacant hparent hlast hnul (hdown.last hlast) (hempty _)⟩

theorem isDirectory_of_notFound (hlast : p.names.getLast? = some n) (hup : n ≠ "..")
    (hm : d.makeDirectory p = .error (.refused .notFound q)) : d.isDirectory p.parent = false := by
  unfold makeDirectory at hm
  split at hm
  · cases hm
  · simp only [hlast, if_neg hup] at hm
    cases hr : d.resolve p.parent with
    | directory l =>
      rw [hr] at hm
      simp only at hm
      split at hm <;> cases hm
    | file | vacant | astray => exact isDirectory_eq_false hr nofun

theorem makeDirectory_ne_nul (hnul : p.hasNul = false) : d.makeDirectory p ≠ .error .nul := by
  have hastray (q : Path) (hq : q.hasNul = false) (a : Astray) (ha : d.resolve q = .astray a) :
      a.error p ≠ .nul := by
    cases a with
    | nul => exact absurd ha (resolve_ne_nul hq)
    | _ => nofun
  intro hm
  unfold makeDirectory at hm
  rw [hnul] at hm
  simp only [Bool.false_eq_true, if_false] at hm
  split at hm
  · cases hm
  split at hm
  · split at hm
    · next a ha => exact hastray p hnul a ha (Except.error.inj hm)
    · cases hm
  · split at hm
    · split at hm <;> cases hm
    · cases hm
    · cases hm
    · next a ha => exact hastray p.parent (hasNul_parent hnul) a ha (Except.error.inj hm)

/-- How the making of directories ends: nothing was made, or all was made and the last one is new. -/
inductive MadeWhole (d : Disk) (p : Path) : Except DiskError Unit → Disk → Prop where
  | failed {e : DiskError} (he : e ≠ .nul) : MadeWhole d p (.error e) d
  | there (h : d.isDirectory p = true) : MadeWhole d p (.ok ()) d
  | fresh {e : Disk} (h : Fresh d e p) : MadeWhole d p (.ok ()) e

theorem settle_whole {x : DiskError} (hx : x ≠ .nul) :
    MadeWhole d p (d.settle p x).1 (d.settle p x).2 := by
  unfold settle
  split
  · exact .failed hx
  · exact .failed hx
  · split
    · next h => exact .there h
    · exact .failed hx

theorem makeDirectoriesUp_whole (ht : d.IsTree) (anchor : Anchor) (up : List String)
    (hdown : Path.GoesDown ⟨anchor, up.reverse⟩) (hnul : Path.hasNul ⟨anchor, up.reverse⟩ = false) :
    MadeWhole d ⟨anchor, up.reverse⟩ (makeDirectoriesUp anchor up d).1
      (makeDirectoriesUp anchor up d).2 := by
  -- by induction on the names: what is made above is new, so the next directory can be made in it
  induction up with
  | nil =>
    refine .there (isDirectory_iff.2 ⟨d.start ⟨anchor, []⟩, ?_⟩)
    rw [resolve, if_neg (by simp [Path.hasNul])]
    exact walk_nil _ _ _
  | cons n up ih =>
    have hparent : Path.parent ⟨anchor, (n :: up).reverse⟩ = ⟨anchor, up.reverse⟩ := by
      rw [Path.parent, List.reverse_cons, List.dropLast_concat]
    have hlast : (Path.mk anchor (n :: up).reverse).names.getLast? = some n := by
      rw [List.reverse_cons, List.getLast?_concat]
    have hup := (hdown.last hlast).2
    have ih := ih (hdown.mono (by rw [List.reverse_cons]; exact List.prefix_append _ _))
      (hparent ▸ hasNul_parent hnul)
    have hmade := (makeDirectoriesUp_spec anchor up d).1
    rw [makeDirectoriesUp_cons]
    cases hm : d.makeDirectory ⟨anchor, (n :: up).reverse⟩ with
    | ok d₁ => exact .fresh (fresh_of_makeDirectory ht (.refl d) hdown hnul hm)
    | error e =>
      cases e with
      | nul => exact absurd hm (makeDirectory_ne_nul hnul)
      | refused cause q =>
        cases cause with
        | notFound =>
          have hnone := isDirectory_of_notFound hlast hup hm
          rw [hparent] at hnone
          generalize makeDirectoriesUp anchor up d = out at ih hmade
          obtain ⟨r, d₁⟩ := out
          cases ih with
          | failed he => exact .failed he
          | there h =>
            rw [hnone] at h
            cases h
          | fresh h =>
            obtain ⟨e, he⟩ := makeDirectory_of_fresh (hparent.symm ▸ h) hlast hnul hup
            simp only [he]
            exact .fresh (fresh_of_makeDirectory (ht.made hmade) (keeps_made hmade) hdown hnul he)
        | _ => exact settle_whole (by simp)

theorem makeDirectories_whole (ht : d.IsTree) (hdown : p.GoesDown) (hnul : p.hasNul = false) :
    MadeWhole d p (d.makeDirectories p).1 (d.makeDirectories p).2 := by
  have h := makeDirectoriesUp_whole ht p.anchor p.names.reverse
    (by rwa [List.reverse_reverse]) (by rwa [List.reverse_reverse])
  rwa [List.reverse_reverse] at h

end Disk
end EnvKeeper
