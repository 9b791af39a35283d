import EnvKeeper.Proofs.Disk.Rewrite

/-! A disk that another one came from: links and directories are still there, and files are files.
A path that led somewhere leads there still. -/

namespace EnvKeeper

namespace Disk

structure Keeps (d e : Disk) : Prop where
  here : e.here = d.here
  file : ∀ l b, d.at? l = some (.file b) → ∃ b', e.at? l = some (.file b')
  link : ∀ l t, d.at? l = some (.link t) → e.at? l = some (.link t)
  directory : ∀ l, d.at? l = some .directory → e.at? l = some .directory

theorem Keeps.refl (d : Disk) : d.Keeps d :=
  ⟨rfl, fun _ b h => ⟨b, h⟩, fun _ _ h => h, fun _ h => h⟩

theorem Keeps.trans {d e f : Disk} (h : d.Keeps e) (h' : e.Keeps f) : d.Keeps f where
  here := h'.here.trans h.here
  file l b hl := by
    obtain ⟨b', hb⟩ := h.file l b hl
    exact h'.file l b' hb
  link l t hl := h'.link l t (h.link l t hl)
  directory l hl := h'.directory l (h.directory l hl)

theorem keeps_put {d : Disk} {l : Location} {x : Entry} (hl : l ≠ [])
    (h : d.at? l = none ∨ ∃ b b', d.at? l = some (.file b) ∧ x = .file b') : d.Keeps (d.put l x) where
  here := rfl
  file m b hm := by
    rw [at?_put d m x hl]
    split
    · next he =>
      subst he
      rcases h with h | ⟨-, b', -, rfl⟩
      · rw [h] at hm
        cases hm
      · exact ⟨b', rfl⟩
    · exact ⟨b, hm⟩
  link m t hm := by
    rw [at?_put d m x hl, if_neg]
    · exact hm
    · rintro rfl
      rcases h with h | ⟨b, -, h, -⟩ <;> rw [h] at hm <;> cases hm
  directory m hm := by
    rw [at?_put d m x hl, if_neg]
    · exact hm
    · rintro rfl
      rcases h with h | ⟨b, -, h, -⟩ <;> rw [h] at hm <;> cases hm

end Disk

/-- A target with what `e` has at its place. -/
def Target.seen (e : Disk) : Target → Target
  | .file l b =>
    match e.at? l with
    | some (.file b') => .file l b'
    | _ => .file l b
  | .vacant l =>
    match e.at? l with
    | some (.file b) => .file l b
    | some .directory => .directory l
    | _ => .vacant l
  | t => t

/-- The target is one, and no link has come to its place. -/
def Target.Stays (e : Disk) : Target → Prop
  | .vacant l => ∀ t, e.at? l ≠ some (.link t)
  | .astray _ => False
  | _ => True

namespace Disk

theorem start_eq {d e : Disk} (h : e.here = d.here) (p : Path) : e.start p = d.start p := by
  rw [start, start, h]

variable {d e : Disk} (h : d.Keeps e)
include h

theorem follow_keeps {writing : Bool} {f g : Location → List String → Target}
    (hfg : ∀ l todo, (f l todo).Stays e → g l todo = (f l todo).seen e) (l : Location)
    (todo : List String) (ht : (d.follow writing f l todo).Stays e) :
    e.follow writing g l todo = (d.follow writing f l todo).seen e := by
  induction todo generalizing l with
  | nil => rfl
  | cons n todo ih =>
    unfold follow at ht ⊢
    split
    · next hn =>
      rw [if_pos hn] at ht
      exact ih l ht
    next hn =>
    rw [if_neg hn] at ht
    split
    · next hup =>
      rw [if_pos hup] at ht
      exact ih l.dropLast ht
    next hup =>
    rw [if_neg hup] at ht
    split
    · next hs =>
      rw [if_pos hs] at ht
      exact ht.elim
    next hs =>
    rw [if_neg hs] at ht
    cases hd : d.at? (l ++ [n]) with
    | none =>
      simp only [hd] at ht ⊢
      by_cases hnil : todo = []
      · subst hnil
        rw [if_pos rfl] at ht ⊢
        simp only [Target.seen]
        cases he : e.at? (l ++ [n]) with
        | none => rfl
        | some x =>
          cases x with
          | file b => rfl
          | link t => exact absurd he (ht t)
          | directory => rfl
      · rw [if_neg hnil] at ht
        exact ht.elim
    | some x =>
      cases x with
      | file b =>
        obtain ⟨b', he⟩ := h.file _ _ hd
        simp only [hd, he] at ht ⊢
        split
        · simp only [Target.seen, he]
        · next hne =>
          rw [if_neg hne] at ht
          exact ht.elim
      | link t =>
        rw [hd] at ht
        rw [h.link _ _ hd]
        exact hfg _ _ ht
      | directory =>
        rw [hd] at ht
        rw [h.directory _ hd]
        exact ih _ ht

theorem walk_keeps (writing : Bool) (links : Nat) (l : Location) (todo : List String)
    (ht : (d.walk writing links l todo).Stays e) :
    e.walk writing links l todo = (d.walk writing links l todo).seen e := by
  induction links generalizing l todo with
  | zero =>
    exact follow_keeps h (f := fun _ _ => .astray .loop) (g := fun _ _ => .astray .loop)
      (fun _ _ ht => ht.elim) l todo ht
  | succ links ih => exact follow_keeps h ih l todo ht

theorem resolve_keeps {p : Path} (ht : (d.resolve p).Stays e) :
    e.resolve p = (d.resolve p).seen e := by
  unfold resolve at ht ⊢
  split
  · rfl
  · next hn =>
    rw [if_neg hn] at ht
    rw [start_eq h.here]
    exact walk_keeps h _ _ _ _ ht

theorem resolve_directory_keeps {p : Path} {l : Location} (hd : d.resolve p = .directory l) :
    e.resolve p = .directory l := by
  have := resolve_keeps h (p := p) (by rw [hd]; trivial)
  rwa [hd] at this

theorem resolve_file_keeps {p : Path} {l : Location} {b : List UInt8} (hd : d.resolve p = .file l b) :
    ∃ b', e.resolve p = .file l b' := by
  have := resolve_keeps h (p := p) (by rw [hd]; trivial)
  obtain ⟨b', he⟩ := h.file l b (at?_of_resolve hd)
  rw [hd, Target.seen, he] at this
  exact ⟨b', this⟩

/-- A file that has come to the place that a path leads to is what it leads to now. -/
theorem resolve_vacant_keeps {p : Path} {l : Location} {b : List UInt8} (hd : d.resolve p = .vacant l)
    (he : e.at? l = some (.file b)) : e.resolve p = .file l b := by
  have := resolve_keeps h (p := p) (by
    rw [hd]
    intro t ht
    rw [he] at ht
    cases ht)
  rwa [hd, Target.seen, he] at this

omit h

/-- Where a write goes: to the file that the path leads to, or to a vacant place, which holds a file
from then on. -/
theorem update_ok {p : Path} {f : List UInt8 → List UInt8} {d' : Disk} (h : d.update p f = .ok d') :
    ∃ l old, (d.resolve p = .file l old ∨ d.resolve p = .vacant l ∧ old = []) ∧
      d' = d.put l (.file (f old)) ∧ d.Keeps d' ∧ d'.resolve p = .file l (f old) := by
  rcases update_eq_ok h with ⟨l, old, hd, rfl⟩ | ⟨l, hd, rfl⟩
  · have hr := resolve_of_destination hd (by simp)
    have hl := at?_of_resolve hr
    have hk := keeps_put (x := .file (f old)) (ne_nil_of_at?_file hl) (.inr ⟨old, _, hl, rfl⟩)
    refine ⟨l, old, .inl hr, rfl, hk, ?_⟩
    rw [resolve_put_file hl, hr, Target.rewrite, if_pos rfl]
  · have hr := resolve_of_destination hd (by simp)
    have hl := at?_of_vacant hr
    have hne := ne_nil_of_at?_none hl
    have hk := keeps_put (x := .file (f [])) hne (.inl hl)
    refine ⟨l, [], .inr ⟨hr, rfl⟩, rfl, hk, ?_⟩
    refine resolve_vacant_keeps hk hr ?_
    rw [at?_put d _ _ hne, if_pos rfl]

theorem ne_nil_of_resolve {p : Path} {l : Location} {old : List UInt8}
    (h : d.resolve p = .file l old ∨ d.resolve p = .vacant l ∧ old = []) : l ≠ [] := by
  rcases h with h | ⟨h, -⟩
  · exact ne_nil_of_at?_file (at?_of_resolve h)
  · exact ne_nil_of_at?_none (at?_of_vacant h)

theorem destination_of_update {p : Path} {f : List UInt8 → List UInt8} {d' : Disk}
    (h : d.update p f = .ok d') : d.destination p = d.resolve p := by
  rcases update_eq_ok h with ⟨l, old, hd, -⟩ | ⟨l, hd, -⟩
  · rw [hd, resolve_of_destination hd (by simp)]
  · rw [hd, resolve_of_destination hd (by simp)]

theorem update_error {p : Path} {f g : List UInt8 → List UInt8} {x : DiskError}
    (h : d.update p f = .error x) : d.update p g = .error x := by
  unfold update at h ⊢
  cases hd : d.destination p with
  | file l old => simp [hd] at h
  | vacant l => simp [hd] at h
  | directory l => simpa [hd] using h
  | astray a => simpa [hd] using h

end Disk
end EnvKeeper
