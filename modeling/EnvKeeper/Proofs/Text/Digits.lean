import EnvKeeper.Text.Character
import Mathlib.Algebra.Group.Nat.Defs

/-! Numbers read back from their digits: a fixed number of hexadecimal digits of either case, and the
digits of a decimal number. -/

namespace EnvKeeper

def hexValue? (c : Char) : Option Nat :=
  if '0' ≤ c ∧ c ≤ '9' then some (c.toNat - 48)
  else if 'a' ≤ c ∧ c ≤ 'f' then some (c.toNat - 87)
  else if 'A' ≤ c ∧ c ≤ 'F' then some (c.toNat - 55)
  else none

def ofHex? (s : List Char) : Option Nat := s.foldlM (fun v c => (hexValue? c).map (v * 16 + ·)) 0

def readHex? (w : Nat) (s : List Char) : Option (Nat × List Char) :=
  if s.length < w then none else (ofHex? (s.take w)).map fun n => (n, s.drop w)

def charOf? (n : Nat) : Option Char := if n.isValidChar then some (Char.ofNat n) else none

theorem charOf?_toNat (c : Char) : charOf? c.toNat = some c := by
  have hv : c.toNat.isValidChar := c.valid
  rw [charOf?, if_pos hv, Char.ofNat_toNat]

theorem hexValue?_digitChar : ∀ n < 16, hexValue? n.digitChar = some n := by decide

theorem hexValue?_toUpper : ∀ n < 16, hexValue? n.digitChar.toUpper = some n := by decide

theorem ofHex?_append_singleton (s : List Char) (c : Char) :
    ofHex? (s ++ [c]) = (ofHex? s).bind fun v => (hexValue? c).map (v * 16 + ·) := by
  rw [ofHex?, List.foldlM_append]
  simp [ofHex?]

/-- What `f` makes of a digit is a digit of the same value. -/
theorem ofHex?_map_hex {f : Char → Char} (hf : ∀ n < 16, hexValue? (f n.digitChar) = some n)
    {w n : Nat} (h : n < 16 ^ w) : ofHex? ((hex w n).map f) = some n := by
  induction w generalizing n with
  | zero =>
    obtain rfl : n = 0 := by simpa using h
    rfl
  | succ w ih =>
    have hlow : n % 16 < 16 := Nat.mod_lt n (by decide)
    have hhigh : n / 16 < 16 ^ w := by
      rw [pow_succ] at h
      omega
    rw [hex, List.map_append, List.map_singleton, ofHex?_append_singleton, ih hhigh, hf _ hlow]
    simp only [Option.bind_some, Option.map_some, Option.some.injEq]
    omega

theorem readHex?_append {ds : List Char} {n : Nat} (h : ofHex? ds = some n) (s : List Char) :
    readHex? ds.length (ds ++ s) = some (n, s) := by
  rw [readHex?, List.take_left, List.drop_left, h, if_neg (by simp)]
  rfl

theorem readHex?_hex {w n : Nat} (h : n < 16 ^ w) (s : List Char) :
    readHex? w (hex w n ++ s) = some (n, s) := by
  have hread := ofHex?_map_hex (f := id) hexValue?_digitChar h
  rw [List.map_id] at hread
  have := readHex?_append hread s
  rwa [hex_length] at this

theorem readHex?_hexUpper {w n : Nat} (h : n < 16 ^ w) (s : List Char) :
    readHex? w (hexUpper w n ++ s) = some (n, s) := by
  have := readHex?_append (ofHex?_map_hex (f := Char.toUpper) hexValue?_toUpper h) s
  rwa [List.length_map, hex_length] at this

theorem exists_toDigits (n : Nat) :
    ∃ c s, Nat.toDigits 10 n = c :: s ∧ ∀ d ∈ c :: s, d.isDigit = true := by
  obtain ⟨c, s, hs⟩ := List.exists_cons_of_ne_nil (Nat.toDigits_ne_nil (n := n) (b := 10))
  refine ⟨c, s, hs, ?_⟩
  intro d hd
  exact Nat.isDigit_of_mem_toDigits (n := n) (by decide) (by decide) (hs ▸ hd)

theorem ne_of_isDigit {c d : Char} (h : c.isDigit = true) (hd : d.isDigit = false) : c ≠ d := by
  rintro rfl
  rw [h] at hd
  cases hd

/-- Only the number zero starts with the digit zero. -/
theorem eq_zero_of_toDigits {n : Nat} {s : List Char} (h : Nat.toDigits 10 n = '0' :: s) :
    n = 0 ∧ s = [] := by
  induction n using Nat.strongRecOn generalizing s with
  | ind n ih =>
    by_cases hn : n < 10
    · rw [Nat.toDigits_of_lt_base hn] at h
      obtain ⟨hd, rfl⟩ := List.cons_eq_cons.1 h
      exact ⟨Nat.digitChar_eq_zero.1 hd, rfl⟩
    · rw [Nat.toDigits_of_base_le (by decide) (by omega)] at h
      cases hhigh : Nat.toDigits 10 (n / 10) with
      | nil => exact absurd hhigh Nat.toDigits_ne_nil
      | cons c t =>
        rw [hhigh] at h
        obtain ⟨rfl, -⟩ := List.cons_eq_cons.1 h
        have := (ih (n / 10) (by omega) hhigh).1
        omega

end EnvKeeper
