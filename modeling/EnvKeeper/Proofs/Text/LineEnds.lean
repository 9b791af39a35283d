import EnvKeeper.Text.Character
import EnvKeeper.Text.Split

/-! Line ends written as LF before and after a text grows by a line feed. A CR at its end takes the
line feed to itself, so the text before may have lost its own last line end to what was added. There
are at most as many line ends as CR and LF together. -/

namespace EnvKeeper

theorem unifyLineEnds_append (t x : List Char) :
    unifyLineEnds (t ++ '\n' :: x) = unifyLineEnds t ++ '\n' :: unifyLineEnds x ∨
      ∃ s, unifyLineEnds t = s ++ ['\n'] ∧
        unifyLineEnds (t ++ '\n' :: x) = s ++ '\n' :: unifyLineEnds x := by
  fun_induction unifyLineEnds t with
  | case1 => exact .inl rfl
  | case2 s ih =>
    simp only [List.cons_append, unifyLineEnds]
    rcases ih with h | ⟨r, hr, h⟩
    · exact .inl (by rw [h])
    · exact .inr ⟨'\n' :: r, by rw [hr]; rfl, by rw [h]; rfl⟩
  | case3 c s hne ih =>
    cases s with
    | nil =>
      by_cases hc : c = '\r'
      · subst hc
        exact .inr ⟨[], rfl, rfl⟩
      · simp [unifyLineEnds, hc]
    | cons y s =>
      have hstep : unifyLineEnds (c :: (y :: s ++ '\n' :: x)) =
          (if c = '\r' then '\n' else c) :: unifyLineEnds (y :: s ++ '\n' :: x) := by
        rw [List.cons_append, unifyLineEnds]
        rintro r hc hy
        exact hne s hc (by rw [(List.cons.inj hy).1])
      rw [List.cons_append, hstep]
      rcases ih with h | ⟨r, hr, h⟩
      · exact .inl (by rw [h]; rfl)
      · exact .inr ⟨(if c = '\r' then '\n' else c) :: r, by rw [hr]; rfl, by rw [h]; rfl⟩

theorem unifyLineEnds_eq_self {s : List Char} (h : '\r' ∉ s) : unifyLineEnds s = s := by
  fun_induction unifyLineEnds s with
  | case1 => rfl
  | case2 s ih => simp at h
  | case3 c s hne ih =>
    obtain ⟨hc, hs⟩ := not_or.1 (mt List.mem_cons.2 h)
    rw [ih hs, if_neg (Ne.symm hc)]

/-- A reading of texts that a line feed cuts in two reads a grown file as the file and what was
added, whatever line ends the file has. `p` is what the reading asks of the second part. -/
theorem unifyLineEnds_cut {α : Type} {f : List Char → List α} {p : List Char → Prop}
    (hnil : f [] = []) (hp : p [])
    (hcut : ∀ s t, p t → f (s ++ '\n' :: t) = f s ++ f t) (t : List Char) {x : List Char}
    (hx : p (unifyLineEnds x)) :
    f (unifyLineEnds (t ++ '\n' :: x)) = f (unifyLineEnds t) ++ f (unifyLineEnds x) := by
  rcases unifyLineEnds_append t x with h | ⟨s, hs, h⟩
  · rw [h, hcut _ _ hx]
  · rw [h, hs, hcut s _ hx, hcut s [] hp, hnil, List.append_nil]

theorem lineEnds_le (s : List Char) : lineEnds s ≤ s.countP isLineEnd := by
  fun_induction lineEnds s with
  | case1 => exact Nat.le_refl 0
  | case2 s ih => simp [isLineEnd]; omega
  | case3 c s hne ih =>
    rw [List.countP_cons]
    by_cases hc : c = '\r' ∨ c = '\n'
    · rcases hc with rfl | rfl <;> simp [isLineEnd] <;> omega
    · rw [if_neg hc]
      omega

theorem lineEnds_pos {s : List Char} {c : Char} (hc : c ∈ s) (h : isLineEnd c = true) :
    0 < lineEnds s := by
  fun_induction lineEnds s with
  | case1 => cases hc
  | case2 => exact Nat.succ_pos _
  | case3 d s hne ih =>
    rcases List.mem_cons.1 hc with rfl | hc
    · have hend : c = '\r' ∨ c = '\n' := by simpa [isLineEnd, or_comm] using h
      rw [if_pos hend]
      omega
    · have := ih hc
      omega

end EnvKeeper
