import EnvKeeper.Text.Character

/-! Names of environment variables, and how one is read off the start of a text. Their characters are
ASCII, so what they are not can be looked up. -/

namespace EnvKeeper

/-- The names that can be referred to: one or more ASCII letters, ASCII digits and `_`. -/
def IsName (n : List Char) : Prop := n ≠ [] ∧ ∀ c ∈ n, isNameChar c = true

theorem isName_iff {n : List Char} : IsName n ↔ (n ≠ [] ∧ n.all isNameChar = true) := by
  rw [IsName, List.all_eq_true]

instance (n : List Char) : Decidable (IsName n) := decidable_of_iff' _ isName_iff

theorem IsName.not_mem {n : List Char} (hn : IsName n) {c : Char} (h : isNameChar c = false) :
    c ∉ n := by
  intro hc
  rw [hn.2 c hc] at h
  cases h

theorem span_append {α : Type} {p : α → Bool} {l r : List α} (hl : ∀ a ∈ l, p a = true)
    (hr : ∀ a, r.head? = some a → p a = false) :
    (l ++ r).takeWhile p = l ∧ (l ++ r).dropWhile p = r := by
  rw [List.takeWhile_append_of_pos hl, List.dropWhile_append_of_pos hl]
  cases r with
  | nil => simp
  | cons a r => simp [hr a rfl]

/-- A run of characters of a kind ends at one that is not of it. -/
theorem eq_false_of_dropWhile {α : Type} {p : α → Bool} {a : α} {l r : List α}
    (h : l.dropWhile p = a :: r) : p a = false := by
  have := List.head?_dropWhile_not p l
  rw [h] at this
  simpa using this

theorem isNameChar_lt {c : Char} (h : isNameChar c = true) : c.toNat < 128 := by
  change ((decide (c.val ≥ 65 ∧ c.val ≤ 90) || (decide (c.val ≥ 97) && decide (c.val ≤ 122))) ||
    (decide (c.val ≥ 48) && decide (c.val ≤ 57)) || c == '_') = true at h
  simp only [Bool.or_eq_true, Bool.and_eq_true, decide_eq_true_eq, beq_iff_eq, ge_iff_le,
    UInt32.le_iff_toNat_le] at h
  change (((65 ≤ c.toNat ∧ c.toNat ≤ 90) ∨ (97 ≤ c.toNat ∧ c.toNat ≤ 122)) ∨
    (48 ≤ c.toNat ∧ c.toNat ≤ 57)) ∨ c = '_' at h
  rcases h with h | rfl
  · omega
  · decide

/-- What holds of each name character is seen by going through ASCII. -/
theorem forall_isNameChar {p : Char → Prop}
    (h : ∀ n < 128, isNameChar (Char.ofNat n) = true → p (Char.ofNat n)) :
    ∀ c, isNameChar c = true → p c := by
  intro c hc
  have := h c.toNat (isNameChar_lt hc)
  rw [Char.ofNat_toNat] at this
  exact this hc

theorem isBlank_eq_false_of_isNameChar : ∀ c, isNameChar c = true → isBlank c = false :=
  forall_isNameChar (by decide)

end EnvKeeper
