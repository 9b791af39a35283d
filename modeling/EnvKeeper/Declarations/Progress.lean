import EnvKeeper.Declarations.Statement

/-! Reading a statement goes forward: each part leaves an end of what was left before it, failed or
not, and a statement that can be read takes at least one character. -/

namespace EnvKeeper.Declarations.Cursor

theorem skipExport_suffix (c : Cursor) : c.skipExport.rest <:+ c.rest := by
  unfold skipExport
  split
  · next s h =>
    have hs : s <:+ c.rest := afterStart?_eq_some.1 h ▸ List.suffix_append _ s
    split
    · exact (skipWhile_suffix _ _).trans hs
    · exact List.suffix_rfl
  · exact List.suffix_rfl

theorem key_suffix {c d : Cursor} {k : Option (List Char)} (h : c.key = .ok (k, d)) :
    d.rest <:+ c.rest := by
  unfold key at h
  split at h
  · cases h; exact List.suffix_rfl
  · next s hs =>
    split at h
    · next q rest _ hr =>
      cases h
      rw [hs, past_rest]
      exact ((List.suffix_cons q rest).trans (hr ▸ List.dropWhile_suffix _)).trans
        (List.suffix_cons _ s)
    · cases h
  · simp only at h
    split at h
    · cases h
    · cases h; exact List.dropWhile_suffix _

/-- A key is read unless a comment starts, and it takes at least one character. -/
theorem key_lt {c d : Cursor} {k : List Char} (h : c.key = .ok (some k, d)) :
    d.rest.length < c.rest.length := by
  have hs := key_suffix h
  refine Nat.lt_of_le_of_ne hs.length_le fun he => ?_
  have := hs.eq_of_length he
  unfold key at h
  split at h
  · cases h
  · next s hr =>
    split at h
    · next q rest _ hd =>
      cases h
      have := (List.dropWhile_suffix (· != '\'') (l := s)).length_le
      rw [hd] at this
      simp [hr] at he this
      omega
    · cases h
  · simp only at h
    split at h
    · cases h
    · next s _ _ hk =>
      cases h
      rw [past_rest] at he
      have := congrArg List.length (List.takeWhile_append_dropWhile (p := isKeyChar) (l := c.rest))
      rw [List.length_append, he] at this
      exact hk (List.isEmpty_iff.2 (List.eq_nil_of_length_eq_zero (by omega)))

theorem key_error {c d : Cursor} (h : c.key = .error d) : d = c := by
  unfold key at h
  split at h <;> try cases h
  · split at h <;> cases h
    rfl
  · simp only at h
    split at h <;> cases h
    rfl

/-- Where no key is read, a comment starts. -/
theorem key_none {c d : Cursor} (h : c.key = .ok (none, d)) : d = c ∧ c.rest.head? = some '#' := by
  unfold key at h
  split at h
  · next hr => cases h; exact ⟨rfl, by rw [hr]; rfl⟩
  · split at h <;> cases h
  · simp only at h
    split at h <;> cases h

theorem quotedValue_suffix {q : Char} {known : Char → Option Char} {c d : Cursor} {s v : List Char}
    (h : c.quotedValue q known s = .ok (v, d)) : d.rest <:+ s := by
  unfold quotedValue at h
  split at h
  · next body rest hs =>
    cases h
    rw [splitAtQuote_append hs]
    exact (List.suffix_cons q rest).trans (List.suffix_append body _)
  · cases h

theorem quotedValue_error {q : Char} {known : Char → Option Char} {c d : Cursor} {s : List Char}
    (h : c.quotedValue q known s = .error d) : d = c := by
  unfold quotedValue at h
  split at h <;> cases h
  rfl

theorem plainValue_suffix {c d : Cursor} {v : List Char} (h : c.plainValue = .ok (v, d)) :
    d.rest <:+ c.rest := by
  unfold plainValue at h
  split at h
  · next s hr => rw [hr]; exact (quotedValue_suffix h).trans (List.suffix_cons _ _)
  · next s hr => rw [hr]; exact (quotedValue_suffix h).trans (List.suffix_cons _ _)
  · cases h; exact List.dropWhile_suffix _

theorem plainValue_error {c d : Cursor} (h : c.plainValue = .error d) : d = c := by
  unfold plainValue at h
  split at h
  · exact quotedValue_error h
  · exact quotedValue_error h
  · cases h

theorem value_suffix {c d : Cursor} {v : Option (List Char)} (h : c.value = .ok (v, d)) :
    d.rest <:+ c.rest := by
  unfold value at h
  split at h
  · next s hr =>
    have hs : (skipWhile isInline ⟨s, c.line⟩).rest <:+ c.rest := by
      rw [hr]; exact (skipWhile_suffix _ _).trans (List.suffix_cons _ _)
    simp only at h
    split at h
    · cases h; exact hs
    · cases hp : plainValue (skipWhile isInline ⟨s, c.line⟩) with
      | error e => rw [hp] at h; cases h
      | ok r => rw [hp] at h; cases h; exact (plainValue_suffix hp).trans hs
  · cases h; exact List.suffix_rfl

theorem value_error {c d : Cursor} (h : c.value = .error d) : d.rest <:+ c.rest := by
  unfold value at h
  split at h
  · next s hr =>
    have hs : (skipWhile isInline ⟨s, c.line⟩).rest <:+ c.rest := by
      rw [hr]; exact (skipWhile_suffix _ _).trans (List.suffix_cons _ _)
    simp only at h
    split at h
    · cases h
    · cases hp : plainValue (skipWhile isInline ⟨s, c.line⟩) with
      | error e => rw [hp] at h; cases h; rw [plainValue_error hp]; exact hs
      | ok r => rw [hp] at h; cases h
  · cases h

theorem skipComment_suffix (c : Cursor) : c.skipComment.rest <:+ c.rest := by
  unfold skipComment
  split
  · next s hr =>
    exact (List.dropWhile_suffix _).trans
      ((List.suffix_cons '#' s).trans (hr ▸ List.dropWhile_suffix isInline))
  · exact List.suffix_rfl

theorem skipComment_lt {c : Cursor} (h : c.rest.head? = some '#') :
    c.skipComment.rest.length < c.rest.length := by
  obtain ⟨s, hs⟩ : ∃ s, c.rest = '#' :: s := by
    cases hr : c.rest with
    | nil => simp [hr] at h
    | cons x s => simp [hr] at h; exact ⟨s, by rw [h]⟩
  have hd : List.dropWhile isInline ('#' :: s) = '#' :: s := by
    rw [List.dropWhile_cons, if_neg (by decide)]
  unfold skipComment
  rw [hs, hd, List.length_cons]
  exact Nat.lt_succ_of_le (List.dropWhile_suffix _).length_le

theorem lineEnd_suffix {c d : Cursor} (h : c.lineEnd = .ok d) : d.rest <:+ c.rest := by
  have hs := List.dropWhile_suffix isInline (l := c.rest)
  unfold lineEnd at h
  split at h
  · cases h; exact List.nil_suffix
  · next s hr =>
    cases h
    have hs : '\r' :: '\n' :: s <:+ c.rest := hr ▸ hs
    exact (List.suffix_append ['\r', '\n'] s).trans hs
  · next e s _ hr =>
    split at h <;> cases h
    exact (List.suffix_cons e s).trans (hr ▸ hs)

theorem lineEnd_error {c d : Cursor} (h : c.lineEnd = .error d) : d = c := by
  unfold lineEnd at h
  split at h
  · cases h
  · cases h
  · split at h <;> cases h
    rfl

theorem statement_ok {c d : Cursor} {b : Binding} (h : c.statement = .ok (b, d)) :
    ∃ e f, c.skipExport.key = .ok (b.key, e) ∧ (e.skipWhile isInline).value = .ok (b.value, f) ∧
      f.skipComment.lineEnd = .ok d := by
  unfold statement at h
  cases hk : c.skipExport.key with
  | error _ => rw [hk] at h; cases h
  | ok r =>
    rw [hk] at h
    obtain ⟨k, e⟩ := r
    cases hv : (e.skipWhile isInline).value with
    | error _ => simp [bind, Except.bind, hv] at h
    | ok r =>
      obtain ⟨v, f⟩ := r
      cases hl : f.skipComment.lineEnd with
      | error _ => simp [bind, Except.bind, hv, hl] at h
      | ok g =>
        simp [bind, Except.bind, pure, Except.pure, hv, hl] at h
        obtain ⟨rfl, rfl⟩ := h
        exact ⟨e, f, rfl, hv, hl⟩

theorem statement_lt {c d : Cursor} {b : Binding} (h : c.statement = .ok (b, d)) :
    d.rest.length < c.rest.length := by
  obtain ⟨e, f, hk, hv, hl⟩ := statement_ok h
  have h1 := (skipExport_suffix c).length_le
  have h2 := (skipWhile_suffix isInline e).length_le
  have h3 := (value_suffix hv).length_le
  have h4 := (skipComment_suffix f).length_le
  have h5 := (lineEnd_suffix hl).length_le
  cases hb : b.key with
  | some k =>
    have := key_lt (hb ▸ hk)
    omega
  | none =>
    obtain ⟨rfl, hh⟩ := key_none (hb ▸ hk)
    obtain ⟨s, hs⟩ : ∃ s, c.skipExport.rest = '#' :: s := by
      cases hr : c.skipExport.rest with
      | nil => simp [hr] at hh
      | cons x s => simp [hr] at hh; exact ⟨s, by rw [hh]⟩
    have hw : (c.skipExport.skipWhile isInline).rest = '#' :: s := by
      rw [skipWhile_rest, hs, List.dropWhile_cons, if_neg (by decide)]
    have hf : f = c.skipExport.skipWhile isInline := by
      unfold value at hv
      simp only [hw] at hv
      injection hv with hv
      exact (congrArg Prod.snd hv).symm
    have := skipComment_lt (c := f) (by rw [hf, hw]; rfl)
    omega

theorem statement_error {c d : Cursor} (h : c.statement = .error d) : d.rest <:+ c.rest := by
  have h1 := skipExport_suffix c
  unfold statement at h
  cases hk : c.skipExport.key with
  | error _ => rw [hk] at h; cases h; rw [key_error hk]; exact h1
  | ok r =>
    rw [hk] at h
    obtain ⟨k, e⟩ := r
    have h2 := ((skipWhile_suffix isInline e).trans (key_suffix hk)).trans h1
    cases hv : (e.skipWhile isInline).value with
    | error _ =>
      simp [bind, Except.bind, hv] at h
      subst h
      exact (value_error hv).trans h2
    | ok r =>
      obtain ⟨v, f⟩ := r
      cases hl : f.skipComment.lineEnd with
      | error _ =>
        simp [bind, Except.bind, hv, hl] at h
        subst h
        rw [lineEnd_error hl]
        exact ((skipComment_suffix f).trans (value_suffix hv)).trans h2
      | ok g => simp [bind, Except.bind, pure, Except.pure, hv, hl] at h

end EnvKeeper.Declarations.Cursor
