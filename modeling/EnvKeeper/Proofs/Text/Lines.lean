import Mathlib.Data.List.Basic

/-! Bytes as lines. Bytes that end a line, or that a line feed ends, may be followed by more bytes: the
lines are those of the two parts. A CR at the end takes that line feed to itself. -/

namespace EnvKeeper

/-- The lines without their ends, which are CR LF, LF and CR. What is left behind the last end is a
line, unless it is empty. -/
def linesOf : List UInt8 → List (List UInt8)
  | [] => []
  | 13 :: 10 :: b => [] :: linesOf b
  | c :: b =>
    if c = 10 ∨ c = 13 then [] :: linesOf b
    else match linesOf b with
      | [] => [[c]]
      | l :: ls => (c :: l) :: ls

/-- What ends the last line of bytes that end in `tail`. -/
def closing (tail : List UInt8) : List UInt8 := if tail = [] ∨ tail = [10] then [] else [10]

variable {b l x : List UInt8} {c : UInt8}

theorem linesOf_end (h : c = 10 ∨ c = 13) (hb : c = 13 → b.head? ≠ some 10) :
    linesOf (c :: b) = [] :: linesOf b := by
  rw [linesOf, if_pos h]
  rintro r rfl rfl
  exact hb rfl rfl

theorem linesOf_cons (h : ¬ (c = 10 ∨ c = 13)) :
    linesOf (c :: b) = (c :: (linesOf b).headD []) :: (linesOf b).tail := by
  rw [linesOf, if_neg h]
  · cases linesOf b <;> rfl
  · rintro r rfl -
    exact h (.inr rfl)

theorem linesOf_eq_nil : linesOf b = [] ↔ b = [] := by
  fun_cases linesOf b <;> simp_all

theorem closing_cons (hb : b ≠ []) :
    closing (c :: b).getLast?.toList = closing b.getLast?.toList := by
  rw [List.getLast?_cons_of_ne_nil hb]

/-- Behind a last line that is ended, the lines of `x` begin. -/
theorem linesOf_append (b x : List UInt8) :
    linesOf (b ++ (closing b.getLast?.toList ++ x)) = linesOf b ++ linesOf x := by
  fun_induction linesOf b with
  | case1 => rfl
  | case2 b ih =>
    by_cases hb : b = []
    · subst hb
      rfl
    · rw [closing_cons (List.cons_ne_nil _ _), closing_cons hb]
      simp only [List.cons_append, linesOf, ih]
  | case3 c b hne hc ih =>
    by_cases hb : b = []
    · subst hb
      rcases hc with rfl | rfl
      · exact linesOf_end (.inl rfl) nofun
      · rfl
    · rw [closing_cons hb, List.cons_append, linesOf_end hc, ih, List.cons_append]
      rintro rfl hhead
      obtain ⟨r, rfl⟩ : ∃ r, b = 10 :: r := by
        rw [List.head?_append_of_ne_nil _ hb] at hhead
        exact List.head?_eq_some_iff.1 hhead
      exact hne r rfl rfl
  | case4 c b hne hc hnil =>
    obtain rfl := linesOf_eq_nil.1 hnil
    have hclosing : closing [c].getLast?.toList = [10] :=
      if_neg fun h => hc (.inl (by simpa using h))
    rw [hclosing, List.singleton_append, linesOf_cons hc]
    rfl
  | case5 c b hne hc l ls hl ih =>
    have hb : b ≠ [] := by
      rintro rfl
      cases hl
    rw [closing_cons hb, List.cons_append, linesOf_cons hc, ih, hl]
    rfl

theorem linesOf_line (h10 : 10 ∉ l) (h13 : 13 ∉ l) : linesOf (l ++ 10 :: x) = l :: linesOf x := by
  induction l with
  | nil => exact linesOf_end (.inl rfl) nofun
  | cons c l ih =>
    have hc : ¬ (c = 10 ∨ c = 13) := by
      rintro (rfl | rfl)
      · exact h10 List.mem_cons_self
      · exact h13 List.mem_cons_self
    rw [List.cons_append, linesOf_cons hc,
      ih (mt (List.mem_cons_of_mem _) h10) (mt (List.mem_cons_of_mem _) h13)]
    rfl

end EnvKeeper
