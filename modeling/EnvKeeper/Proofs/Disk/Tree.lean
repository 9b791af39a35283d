import EnvKeeper.Proofs.Disk.Directories
import EnvKeeper.Proofs.Disk.Keeps
import EnvKeeper.Proofs.Disk.Walk

/-! Disks on which everything lies in a directory. There, what is made for a path that goes up only at
its start brings no file under that path: nothing is below a new directory but new directories. -/

namespace EnvKeeper

/-- No `..` stands behind another name. -/
structure Path.IsStraight (p : Path) : Prop where
  plain : ∀ n ∈ p.names, n ≠ "" ∧ n ≠ "."
  ups : p.names.Pairwise fun a b => b = ".." → a = ".."

namespace Disk

structure IsTree (d : Disk) : Prop where
  here : d.at? d.here = some .directory
  above : ∀ l n, d.at? (l ++ [n]) ≠ none → d.at? l = some .directory

end Disk

/-- A directory that is one, or a place in a directory. -/
def Target.Stands (d : Disk) : Target → Prop
  | .directory l => d.at? l = some .directory
  | .file l _ => ∃ m n, l = m ++ [n] ∧ d.at? m = some .directory
  | .vacant l => ∃ m n, l = m ++ [n] ∧ d.at? m = some .directory
  | .astray _ => True

namespace Disk

variable {d d' e : Disk} {p q : Path} {l m : Location} {n : String}

section Tree

variable (h : d.IsTree)
include h

theorem IsTree.below (hl : d.at? l ≠ some .directory) (x : List String) (hx : x ≠ []) :
    d.at? (l ++ x) = none := by
  induction x generalizing l with
  | nil => exact absurd rfl hx
  | cons n x ih =>
    have hn : d.at? (l ++ [n]) = none := Decidable.byContradiction fun hn => hl (h.above l n hn)
    by_cases hx : x = []
    · rw [hx]
      exact hn
    · rw [List.append_cons]
      exact ih (by rw [hn]; simp) hx

theorem IsTree.dropLast (hl : d.at? l = some .directory) : d.at? l.dropLast = some .directory := by
  by_cases hnil : l = []
  · rw [hnil]
    rfl
  · refine h.above _ (l.getLast hnil) ?_
    rw [List.dropLast_concat_getLast, hl]
    simp

/-- Something new in a directory, or something else in the place of a file. -/
theorem IsTree.put (hm : d.at? m = some .directory) (hl : d.at? (m ++ [n]) ≠ some .directory)
    (x : Entry) : (d.put (m ++ [n]) x).IsTree := by
  have hne : m ++ [n] ≠ [] := by simp
  refine ⟨?_, ?_⟩
  · rw [put_here, at?_put d _ x hne, if_neg]
    · exact h.here
    · intro he
      rw [he] at hl
      exact hl h.here
  · intro k j hk
    rw [at?_put d _ x hne] at hk ⊢
    by_cases hkl : m ++ [n] = k
    · subst hkl
      rw [if_neg (by simp)] at hk
      exact absurd (h.above _ j hk) hl
    · rw [if_neg hkl]
      split at hk
      · next he =>
        obtain ⟨rfl, -⟩ := List.append_inj' he rfl
        exact hm
      · exact h.above k j hk

theorem follow_stands {writing : Bool} {f : Location → List String → Target}
    (hf : ∀ l todo, d.at? l = some .directory → (f l todo).Stands d) {l : Location}
    (hl : d.at? l = some .directory) (todo : List String) :
    (d.follow writing f l todo).Stands d := by
  induction todo generalizing l with
  | nil => exact hl
  | cons n todo ih =>
    unfold follow
    split
    · exact ih hl
    split
    · exact ih (h.dropLast hl)
    split
    · trivial
    split
    · split
      · exact ⟨l, n, rfl, hl⟩
      · trivial
    · split
      · exact ⟨l, n, rfl, hl⟩
      · trivial
    · refine hf _ _ ?_
      split
      · rfl
      · exact hl
    · next hdir => exact ih hdir

theorem resolve_stands (p : Path) : (d.resolve p).Stands d := by
  have hwalk (writing : Bool) (links : Nat) : ∀ l todo, d.at? l = some .directory →
      (d.walk writing links l todo).Stands d := by
    induction links with
    | zero =>
      exact fun l todo hl =>
        follow_stands h (f := fun _ _ => .astray .loop) (fun _ _ _ => trivial) hl todo
    | succ links ih => exact fun l todo hl => follow_stands h ih hl todo
  unfold resolve
  split
  · trivial
  · refine hwalk _ _ _ _ ?_
    unfold start
    split
    · exact h.here
    · rfl

theorem IsTree.makeDirectory (hm : d.makeDirectory p = .ok d') : d'.IsTree := by
  obtain ⟨l, hs, hl, rfl⟩ := makeDirectory_eq_ok hm
  unfold slot? at hs
  split at hs
  · next k n hk _ =>
    cases hs
    have hstands := resolve_stands h p.parent
    rw [hk] at hstands
    exact h.put hstands (by rw [hl]; simp) _
  · cases hs

theorem IsTree.made (hm : Made p d e) : e.IsTree := by
  induction hm with
  | refl => exact h
  | tail _ _ _ _ hm ih => exact ih.makeDirectory hm

theorem IsTree.update {f : List UInt8 → List UInt8} (hu : d.update p f = .ok d') : d'.IsTree := by
  obtain ⟨l, old, hr, rfl, -, -⟩ := update_ok hu
  have hstands := resolve_stands h p
  have hholds := d.resolve_holds p
  rcases hr with hr | ⟨hr, -⟩ <;> rw [hr] at hstands hholds <;> obtain ⟨m, n, rfl, hm⟩ := hstands
  · exact h.put hm (by rw [hholds]; simp) _
  · exact h.put hm (by rw [hholds]; simp) _

end Tree

theorem follow_append_eq {f : Location → List String → Target} {y : List String}
    (hf : ∀ l xs, f l xs = .directory m → ∃ k, f l (xs ++ y) = d.walk false k m y)
    {l : Location} {xs : List String} (h : d.follow false f l xs = .directory m) :
    d.follow false f l (xs ++ y) = d.follow false f m y ∨
      ∃ k, d.follow false f l (xs ++ y) = d.walk false k m y := by
  induction xs generalizing l with
  | nil =>
    cases h
    exact .inl rfl
  | cons n xs ih =>
    rw [List.cons_append]
    unfold follow at h
    rw [follow.eq_2]
    simp only [Bool.false_eq_true, false_and, if_false] at h ⊢
    split
    · next hn =>
      rw [if_pos hn] at h
      exact ih h
    next hn =>
    rw [if_neg hn] at h
    split
    · next hup =>
      rw [if_pos hup] at h
      exact ih h
    next hup =>
    rw [if_neg hup] at h
    cases he : d.at? (l ++ [n]) with
    | none =>
      rw [he] at h
      simp only at h
      split at h <;> cases h
    | some x =>
      rw [he] at h
      cases x with
      | file b =>
        simp only at h
        split at h <;> cases h
      | link t =>
        simp only at h ⊢
        rw [← List.append_assoc]
        exact .inr (hf _ _ h)
      | directory => exact ih h

theorem walk_append_eq {links : Nat} {xs : List String}
    (h : d.walk false links l xs = .directory m) (ys : List String) :
    ∃ k, d.walk false links l (xs ++ ys) = d.walk false k m ys := by
  induction links generalizing l xs with
  | zero =>
    rcases follow_append_eq (f := fun _ _ => .astray .loop) (y := ys) nofun h with hw | hw
    · exact ⟨0, hw⟩
    · exact hw
  | succ links ih =>
    rcases follow_append_eq (y := ys) (fun _ _ h => ih h) h with hw | hw
    · exact ⟨links + 1, hw⟩
    · exact hw

theorem follow_directories {f : Location → List String → Target} {names : List String}
    (hd : ∀ x, d.at? (l ++ x) = none ∨ d.at? (l ++ x) = some .directory)
    (hn : ∀ n ∈ names, (n ≠ "" ∧ n ≠ ".") ∧ n ≠ "..") (k : Location) (b : List UInt8) :
    d.follow false f l names ≠ .file k b := by
  induction names generalizing l with
  | nil => exact nofun
  | cons n names ih =>
    obtain ⟨⟨hempty, hdot⟩, hup⟩ := hn n List.mem_cons_self
    unfold follow
    rw [if_neg (by simp [hempty, hdot]), if_neg hup]
    simp only [Bool.false_eq_true, false_and, if_false]
    rcases hd [n] with hat | hat
    · rw [hat]
      simp only
      split <;> nofun
    · rw [hat]
      refine ih (fun x => ?_) fun j hj => hn j (List.mem_cons_of_mem _ hj)
      rw [List.append_assoc]
      exact hd ([n] ++ x)

theorem keeps_made (h : Made p d e) : d.Keeps e := by
  induction h with
  | refl => exact .refl d
  | tail _ _ _ _ hm ih =>
    obtain ⟨l, -, hl, rfl⟩ := makeDirectory_eq_ok hm
    exact ih.trans (keeps_put (ne_nil_of_at?_none hl) (.inl hl))

theorem Made.first (h : Made p d e) :
    e = d ∨ ∃ (q : Path) (k : Location) (n : String), q.anchor = p.anchor ∧ q.names <+: p.names ∧
      q.names.getLast? = some n ∧ n ≠ ".." ∧ d.resolve q.parent = .directory k ∧
      d.at? (k ++ [n]) = none ∧ e.at? (k ++ [n]) = some .directory := by
  induction h with
  | refl => exact .inl rfl
  | tail q _ ha hp hm ih =>
    obtain ⟨k, n, hn, hup, hk, hv, rfl⟩ := makeDirectory_ok hm
    rcases ih with rfl | ⟨q', k', n', ha', hp', hn', hup', hk', hv', hdir⟩
    · refine .inr ⟨q, k, n, ha, hp, hn, hup, hk, hv, ?_⟩
      rw [at?_put _ _ _ (ne_nil_of_at?_none hv), if_pos rfl]
    · refine .inr ⟨q', k', n', ha', hp', hn', hup', hk', hv', ?_⟩
      rw [at?_put _ _ _ (ne_nil_of_at?_none hv)]
      split
      · rfl
      · exact hdir

/-- A file that such a path leads to when directories were made is one that it led to before. -/
theorem resolve_made_straight (ht : d.IsTree) (hp : p.IsStraight) (h : Made p.parent d e)
    {b : List UInt8} (hf : e.resolve p = .file l b) : d.resolve p = .file l b := by
  rcases h.first with rfl | ⟨q, k, n, ha, hpre, hn, hup, hk, hv, hdir⟩
  · exact hf
  -- otherwise the path goes through the new directory, and there it stays among directories
  have hbelow (x : List String) :
      e.at? (k ++ [n] ++ x) = none ∨ e.at? (k ++ [n] ++ x) = some .directory := by
    cases he : e.at? (k ++ [n] ++ x) with
    | none => exact .inl rfl
    | some y =>
      by_cases hy : y = .directory
      · exact .inr (congrArg some hy)
      have hd := at?_of_made h he hy
      by_cases hx : x = []
      · rw [hx, List.append_nil, hv] at hd
        cases hd
      · rw [ht.below (by rw [hv]; simp) x hx] at hd
        cases hd
  obtain ⟨rest, hrest⟩ : ∃ rest, q.parent.names ++ n :: rest = p.names := by
    obtain ⟨rest, hrest⟩ := hpre.trans (List.dropLast_prefix _)
    obtain ⟨above, hnames⟩ := List.getLast?_eq_some_iff.1 hn
    refine ⟨rest, ?_⟩
    rw [Path.parent, ← hrest, hnames, List.dropLast_concat, List.append_cons]
  have hplain : ∀ m ∈ n :: rest, (m ≠ "" ∧ m ≠ ".") ∧ m ≠ ".." := by
    intro m hm
    refine ⟨hp.plain m (by rw [← hrest]; exact List.mem_append_right _ hm), fun he => ?_⟩
    have hups := hp.ups
    rw [← hrest] at hups
    have hups := List.pairwise_cons.1 (List.pairwise_append.1 hups).2.1
    rcases List.mem_cons.1 hm with rfl | hm
    · exact hup he
    · exact hup (hups.1 m hm he)
  have hk' := resolve_directory_keeps (keeps_made h) hk
  have hstart : e.start q.parent = e.start p := by
    rw [start, start, Path.parent, ha, Path.parent]
  unfold resolve at hf hk'
  split at hf
  · cases hf
  split at hk'
  · cases hk'
  rw [hstart] at hk'
  obtain ⟨links, hwalk⟩ := walk_append_eq hk' (n :: rest)
  rw [← hrest, hwalk, walk_cons_directory (hplain n List.mem_cons_self) hdir] at hf
  have hrestplain : ∀ m ∈ rest, (m ≠ "" ∧ m ≠ ".") ∧ m ≠ ".." := fun m hm =>
    hplain m (List.mem_cons_of_mem _ hm)
  cases links with
  | zero => exact absurd hf (follow_directories hbelow hrestplain l b)
  | succ links => exact absurd hf (follow_directories hbelow hrestplain l b)

end Disk
end EnvKeeper
