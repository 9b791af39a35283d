import EnvKeeper.Proofs.Glob.Pattern

/-! Texts that are no patterns: one that is empty, that starts with a slash, or that holds `**` within a
part. No disk is asked for that, and of several such texts the first one counts. -/

namespace EnvKeeper

theorem mapM_eq_error {α β ε : Type} {f : α → Except ε β} {before after : List α} {a : α} {e : ε}
    (hbefore : ∀ b ∈ before, ∃ c, f b = .ok c) (ha : f a = .error e) :
    (before ++ a :: after).mapM f = .error e := by
  induction before with
  | nil =>
    rw [List.nil_append, List.mapM_cons, ha]
    rfl
  | cons b before ih =>
    obtain ⟨⟨c, hc⟩, hbefore⟩ := List.forall_mem_cons.1 hbefore
    rw [List.cons_append, List.mapM_cons, hc]
    simp only [bind, Except.bind, ih hbefore]

theorem exists_first {α : Type} (P : α → Prop) (l : List α) :
    (∀ a ∈ l, ¬ P a) ∨ ∃ before a after, l = before ++ a :: after ∧ (∀ b ∈ before, ¬ P b) ∧ P a := by
  classical
  cases h : l.find? fun a => decide (P a) with
  | none => exact .inl (by simpa using h)
  | some a =>
    obtain ⟨ha, before, after, hl, hbefore⟩ := List.find?_eq_some_iff_append.1 h
    exact .inr ⟨before, a, after, hl, by simpa using hbefore, by simpa using ha⟩

namespace Pattern

/-- What is wrong with a text that is no pattern. -/
inductive Flawed : String → PatternError → Prop where
  | empty : Flawed "" .empty
  | absolute {t : String} (h : t.toList.head? = some '/') : Flawed t .absolute
  | starsInName {t n : String} (h : t.toList.head? ≠ some '/') (hn : n ∈ Path.splitText t)
    (hstars : ['*', '*'] <:+: n.toList) (hname : n ≠ "**") : Flawed t .starsInName

/-- Some part of the text is a name. -/
def HasPart (t : String) : Prop := ∃ n ∈ Path.splitText t, n ≠ "" ∧ n ≠ "."

instance (t : String) : Decidable (HasPart t) :=
  inferInstanceAs (Decidable (∃ n ∈ Path.splitText t, n ≠ "" ∧ n ≠ "."))

variable {t n : String} {e : PatternError}

theorem mem_names : n ∈ (Path.ofText t).names ↔ n ∈ Path.splitText t ∧ n ≠ "" ∧ n ≠ "." := by
  simp [Path.ofText]

theorem anchor_eq_relative : (Path.ofText t).anchor = .relative ↔ t.toList.head? ≠ some '/' := by
  simp only [Path.ofText]
  cases t.toList with
  | nil => exact iff_of_true rfl nofun
  | cons c s =>
    by_cases hc : c = '/'
    · subst hc
      refine iff_of_false ?_ (not_not.2 rfl)
      simp only [List.takeWhile_cons, beq_self_eq_true, if_true, List.length_cons]
      split
      · next h => cases h
      · nofun
      · nofun
    · simp [hc]

theorem names_ne_nil : (Path.ofText t).names ≠ [] ↔ HasPart t := by
  constructor
  · intro h
    obtain ⟨n, hn⟩ := List.exists_mem_of_ne_nil _ h
    exact ⟨n, mem_names.1 hn⟩
  · rintro ⟨n, hn⟩
    exact List.ne_nil_of_mem (mem_names.2 hn)

theorem ne_of_stars (h : ['*', '*'] <:+: n.toList) : n ≠ "" ∧ n ≠ "." := by
  constructor
  · rintro rfl
    exact absurd h (by decide)
  · rintro rfl
    exact absurd h (by decide)

theorem read_part_error (hstars : ['*', '*'] <:+: n.toList) (hname : n ≠ "**") :
    Part.read n = .error .starsInName := by
  simp only [Part.read, if_neg hname, hasStars_iff.2 hstars, if_true]

/-- Parts are read up to the first one that holds `**` beside something else. -/
theorem mapM_read_part {parts : List String} (hn : n ∈ parts) (hstars : ['*', '*'] <:+: n.toList)
    (hname : n ≠ "**") : parts.mapM Part.read = .error .starsInName := by
  rcases exists_first (fun n => ['*', '*'] <:+: n.toList ∧ n ≠ "**") parts with
    hnone | ⟨before, m, after, rfl, hbefore, hm⟩
  · exact absurd ⟨hstars, hname⟩ (hnone n hn)
  · refine mapM_eq_error (fun b hb => read_part fun hb' => ?_) (read_part_error hm.1 hm.2)
    by_contra hne
    exact hbefore b hb ⟨hb', hne⟩

theorem read_of_flawed (h : Flawed t e) : read t = .error e := by
  have hne {s : String} (hs : s.toList ≠ []) : s ≠ "" := by
    rintro rfl
    exact hs rfl
  cases h with
  | empty => rfl
  | absolute h =>
    have hanchor : (Path.ofText t).anchor ≠ .relative := fun ha => anchor_eq_relative.1 ha h
    have htext : t ≠ "" := hne fun he => by rw [he] at h; cases h
    simp only [read, if_neg htext, if_pos hanchor]
    rfl
  | @starsInName _ n h hn hstars hname =>
    have hmem := mem_names.2 ⟨hn, ne_of_stars hstars⟩
    have hparts := List.ne_nil_of_mem hmem
    have htext : t ≠ "" := by
      rintro rfl
      exact hparts (by decide)
    simp [read, htext, anchor_eq_relative.2 h, hparts, mapM_read_part hmem hstars hname, bind,
      Except.bind]

/-- A text that has a part, or a flaw at its start, is a valid pattern if it has no flaw. -/
theorem isValid_of_not_flawed (ht : t = "" ∨ t.toList.head? = some '/' ∨ HasPart t)
    (h : ∀ e, ¬ Flawed t e) : IsValid t := by
  have hrelative : t.toList.head? ≠ some '/' := fun hslash => h _ (.absolute hslash)
  have hpart : HasPart t := by
    rcases ht with rfl | hslash | hpart
    · exact absurd .empty (h _)
    · exact absurd hslash hrelative
    · exact hpart
  refine ⟨anchor_eq_relative.2 hrelative, names_ne_nil.2 hpart, fun n hn hstars => ?_⟩
  by_contra hname
  exact h _ (.starsInName hrelative (mem_names.1 hn).1 hstars hname)

theorem IsValid.exists_read (h : IsValid t) : ∃ p, read t = .ok p := by
  obtain ⟨ps, hread, -⟩ := read_of_valid h
  exact ⟨_, hread⟩

theorem isValid_of_read {p : Pattern} (h : read t = .ok p) : IsValid t := by
  have hsound (e) : ¬ Flawed t e := fun he => by
    rw [read_of_flawed he] at h
    cases h
  refine isValid_of_not_flawed (.inr (.inr (names_ne_nil.1 fun hnil => ?_))) hsound
  simp only [read, hnil, if_true] at h
  split at h <;> split at h <;> cases h

theorem hasPart_used {s : Selection}
    (h : ∀ t ∈ s.patterns, t = "" ∨ t.toList.head? = some '/' ∨ HasPart t) :
    ∀ t ∈ s.patternsUsed, t = "" ∨ t.toList.head? = some '/' ∨ HasPart t :=
  forall_used (fun t ht => .inr (.inr (names_ne_nil.1 (isValid_default t ht).parts))) h

end Pattern

namespace Disk

theorem candidates_of_sound {s : Selection}
    (hs : ∀ t ∈ s.patternsUsed, Pattern.IsValid t) (d : Disk) (root : Path) :
    ∃ files, d.candidates root s = .ok files := by
  obtain ⟨ps, hps⟩ := exists_forall₂ fun t ht => (hs t ht).exists_read
  exact ⟨_, by rw [candidates, mapM_eq_ok.2 hps]; rfl⟩

/-- The first flaw is the error, whatever is on the disk. -/
theorem candidates_of_flawed {s : Selection} {before after : List String} {t : String}
    {e : PatternError} (hs : s.patternsUsed = before ++ t :: after)
    (hbefore : ∀ u ∈ before, Pattern.IsValid u) (ht : Pattern.Flawed t e) (d : Disk) (root : Path) :
    d.candidates root s = .error e := by
  rw [candidates, hs, mapM_eq_error (fun u hu => (hbefore u hu).exists_read)
    (Pattern.read_of_flawed ht)]
  rfl

theorem isValid_of_candidates {d : Disk} {root : Path} {s : Selection} {files : List (List String)}
    (h : d.candidates root s = .ok files) : ∀ t ∈ s.patternsUsed, Pattern.IsValid t := by
  unfold candidates at h
  obtain ⟨ps, hps, -⟩ := bind_eq_ok h
  have hread : List.Forall₂ (fun t p => Pattern.IsValid t ∧ Pattern.read t = .ok p)
      s.patternsUsed ps :=
    (mapM_eq_ok.1 hps).imp fun _ _ h => ⟨Pattern.isValid_of_read h, h⟩
  exact ((List.forall₂_and_left _ _).1 hread).1

end Disk
end EnvKeeper
