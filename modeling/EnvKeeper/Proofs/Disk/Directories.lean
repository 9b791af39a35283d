import EnvKeeper.Disk.Arrange
import EnvKeeper.Proofs.Disk.Leads

/-! Making directories. Each is made in its turn at a vacant place, for a beginning of the path that is
asked for, whether or not all of them can be made; and if not, the path leads to no directory. -/

namespace EnvKeeper.Disk

variable {d d' : Disk} {p q : Path} {e : DiskError}

theorem isDirectory_parent (h : d.isDirectory p = true) : d.isDirectory p.parent = true := by
  obtain ⟨l, hl⟩ := isDirectory_iff.1 h
  exact isDirectory_iff.2 (resolve_parent fun a ha => by rw [hl] at ha; cases ha)

theorem isDirectory_eq_false {t : Target} (h : d.resolve p = t) (ht : ∀ l, t ≠ .directory l) :
    d.isDirectory p = false := by
  cases hd : d.isDirectory p with
  | false => rfl
  | true =>
    obtain ⟨l, hl⟩ := isDirectory_iff.1 hd
    exact absurd (h.symm.trans hl) (ht l)

theorem isDirectory_eq_false_of_parent (h : d.isDirectory p.parent = false) :
    d.isDirectory p = false := by
  cases hd : d.isDirectory p with
  | false => rfl
  | true => rw [isDirectory_parent hd] at h; cases h

theorem isDirectory_of_nul (h : p.hasNul = true) : d.isDirectory p = false :=
  isDirectory_eq_false (t := .astray .nul) (by rw [resolve, if_pos h]) nofun

/-- One directory, made at a vacant place. -/
theorem makeDirectory_ok (h : d.makeDirectory p = .ok d') :
    ∃ l n, p.names.getLast? = some n ∧ n ≠ ".." ∧ d.resolve p.parent = .directory l ∧
      d.at? (l ++ [n]) = none ∧ d' = d.put (l ++ [n]) .directory := by
  unfold makeDirectory at h
  split at h
  · cases h
  split at h
  · cases h
  next n hn =>
  split at h
  · split at h <;> cases h
  next hup =>
  split at h
  · next l hl =>
    split at h
    · cases h
    · next hv =>
      cases h
      exact ⟨l, n, hn, hup, hl, by simpa using hv, rfl⟩
  · cases h
  · cases h
  · cases h

theorem makeDirectory_eq_ok (h : d.makeDirectory p = .ok d') :
    ∃ l, d.slot? p = some l ∧ d.at? l = none ∧ d' = d.put l .directory := by
  obtain ⟨l, n, hn, -, hl, hv, rfl⟩ := makeDirectory_ok h
  exact ⟨l ++ [n], by simp only [slot?, hl, hn], hv, rfl⟩

/-- The failures for which the path is not even looked at again. -/
def DiskError.IsFinal : DiskError → Prop
  | .refused .notFound _ => True
  | .nul => True
  | _ => False

theorem isDirectory_of_error (h : d.makeDirectory p = .error e) (he : DiskError.IsFinal e) :
    d.isDirectory p = false := by
  unfold makeDirectory at h
  split at h
  · next hn => exact isDirectory_of_nul hn
  split at h
  · cases h
    exact he.elim
  · split at h
    · cases hr : d.resolve p with
      | astray a => exact isDirectory_eq_false hr nofun
      | file l b => rw [hr] at h; cases h; exact he.elim
      | directory l => rw [hr] at h; cases h; exact he.elim
      | vacant l => rw [hr] at h; cases h; exact he.elim
    · cases hr : d.resolve p.parent with
      | astray a => exact isDirectory_eq_false_of_parent (isDirectory_eq_false hr nofun)
      | file l b => exact isDirectory_eq_false_of_parent (isDirectory_eq_false hr nofun)
      | vacant l => exact isDirectory_eq_false_of_parent (isDirectory_eq_false hr nofun)
      | directory l =>
        rw [hr] at h
        simp only at h
        split at h
        · cases h
          exact he.elim
        · cases h

/-- What is made of a failure of one directory: it is none if the directory is there. -/
def settle (d : Disk) (p : Path) (e : DiskError) : Except DiskError Unit × Disk :=
  match e with
  | .refused .notFound _ => (.error e, d)
  | .nul => (.error e, d)
  | _ => if d.isDirectory p then (.ok (), d) else (.error e, d)

theorem makeDirectoriesUp_cons (anchor : Anchor) (n : String) (up : List String) (d : Disk) :
    makeDirectoriesUp anchor (n :: up) d =
      match d.makeDirectory ⟨anchor, (n :: up).reverse⟩ with
      | .ok d => (.ok (), d)
      | .error (.refused .notFound _) =>
        match makeDirectoriesUp anchor up d with
        | (.error e, d) => (.error e, d)
        | (.ok (), d) =>
          match d.makeDirectory ⟨anchor, (n :: up).reverse⟩ with
          | .ok d => (.ok (), d)
          | .error e => d.settle ⟨anchor, (n :: up).reverse⟩ e
      | .error e => d.settle ⟨anchor, (n :: up).reverse⟩ e := rfl

theorem settle_snd (d : Disk) (p : Path) (e : DiskError) : (d.settle p e).2 = d := by
  unfold settle
  split
  · rfl
  · rfl
  · split <;> rfl

theorem isDirectory_of_settle {e' : DiskError} (h : d.makeDirectory p = .error e)
    (hs : (d.settle p e).1 = .error e') : d.isDirectory p = false := by
  unfold settle at hs
  split at hs
  · exact isDirectory_of_error h trivial
  · exact isDirectory_of_error h trivial
  · split at hs
    · cases hs
    · next hd => simpa using hd

/-- Directories made one after the other, for beginnings of `p`. -/
inductive Made (p : Path) : Disk → Disk → Prop where
  | refl (d : Disk) : Made p d d
  | tail {d d₁ d₂ : Disk} (q : Path) (h : Made p d d₁) (hq : q.anchor = p.anchor)
    (hbeg : q.names <+: p.names) (hm : d₁.makeDirectory q = .ok d₂) : Made p d d₂

theorem Made.mono (h : Made q d d') (ha : q.anchor = p.anchor) (hp : q.names <+: p.names) :
    Made p d d' := by
  induction h with
  | refl => exact .refl _
  | tail r _ hr hbeg hm ih => exact .tail r ih (hr.trans ha) (hbeg.trans hp) hm

/-- What is there and is no directory was there before. -/
theorem at?_of_made {l : Location} {x : Entry} (h : Made p d d') (hx : d'.at? l = some x)
    (hne : x ≠ .directory) : d.at? l = some x := by
  induction h with
  | refl => exact hx
  | tail q _ _ _ hm ih =>
    refine ih ?_
    obtain ⟨m, -, hvacant, rfl⟩ := makeDirectory_eq_ok hm
    rw [at?_put _ l _ (ne_nil_of_at?_none hvacant)] at hx
    split at hx
    · cases hx
      exact absurd rfl hne
    · exact hx

theorem makeDirectoriesUp_spec (anchor : Anchor) (up : List String) (d : Disk) :
    Made ⟨anchor, up.reverse⟩ d (makeDirectoriesUp anchor up d).2 ∧
      ∀ e, (makeDirectoriesUp anchor up d).1 = .error e →
        (makeDirectoriesUp anchor up d).2.isDirectory ⟨anchor, up.reverse⟩ = false := by
  induction up generalizing d with
  | nil => exact ⟨.refl d, fun e h => by cases h⟩
  | cons n up ih =>
    have hself : (n :: up).reverse <+: (n :: up).reverse := List.prefix_rfl
    have hup : up.reverse <+: (n :: up).reverse := by
      rw [List.reverse_cons]
      exact List.prefix_append _ _
    rw [makeDirectoriesUp_cons]
    cases hm : d.makeDirectory ⟨anchor, (n :: up).reverse⟩ with
    | ok d₁ => exact ⟨.tail _ (.refl d) rfl hself hm, by simp⟩
    | error e =>
      have hsettle {d₁ : Disk} {e : DiskError} (hd : Made ⟨anchor, (n :: up).reverse⟩ d d₁)
          (hm : d₁.makeDirectory ⟨anchor, (n :: up).reverse⟩ = .error e) :
          Made ⟨anchor, (n :: up).reverse⟩ d (d₁.settle ⟨anchor, (n :: up).reverse⟩ e).2 ∧
            ∀ e', (d₁.settle ⟨anchor, (n :: up).reverse⟩ e).1 = .error e' →
              (d₁.settle ⟨anchor, (n :: up).reverse⟩ e).2.isDirectory
                ⟨anchor, (n :: up).reverse⟩ = false := by
        rw [settle_snd]
        exact ⟨hd, fun e' he' => isDirectory_of_settle hm he'⟩
      cases e with
      | nul => exact hsettle (.refl d) hm
      | refused cause path =>
        cases cause with
        | notFound =>
          obtain ⟨hmade, herr⟩ := ih d
          have hmade := hmade.mono (p := ⟨anchor, (n :: up).reverse⟩) rfl hup
          cases hu : makeDirectoriesUp anchor up d with
          | mk r d₁ =>
          rw [hu] at hmade herr
          cases r with
          | error e =>
            refine ⟨hmade, fun e' _ => ?_⟩
            refine isDirectory_eq_false_of_parent ?_
            rw [Path.parent, List.reverse_cons, List.dropLast_concat]
            exact herr e rfl
          | ok =>
            cases hm : d₁.makeDirectory ⟨anchor, (n :: up).reverse⟩ with
            | ok d₂ =>
              simp only [hm]
              exact ⟨.tail _ hmade rfl hself hm, by simp⟩
            | error e =>
              simp only [hm]
              exact hsettle hmade hm
        | _ => exact hsettle (.refl d) hm

theorem makeDirectories_made (d : Disk) (p : Path) : Made p d (d.makeDirectories p).2 := by
  have := (makeDirectoriesUp_spec p.anchor p.names.reverse d).1
  rwa [List.reverse_reverse] at this

theorem makeDirectories_error (h : d.makeDirectories p = (.error e, d')) :
    d'.isDirectory p = false := by
  have hspec := (makeDirectoriesUp_spec p.anchor p.names.reverse d).2
  change ∀ e, (d.makeDirectories p).1 = .error e → (d.makeDirectories p).2.isDirectory _ = false
    at hspec
  rw [h, List.reverse_reverse] at hspec
  exact hspec e rfl

end EnvKeeper.Disk
