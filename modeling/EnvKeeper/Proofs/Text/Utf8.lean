import EnvKeeper.Text.Utf8

/-! The reading of UTF-8 and the encoding are inverse to each other: bytes are read as a text just if
they are its encoding. So a text may grow, and what could not be read cannot be mended by adding to
it something that starts with an ASCII character. -/

namespace EnvKeeper.Utf8

theorem toNat_ofNat {n : Nat} (h : n < 0xD800 ∨ 0xDFFF < n ∧ n < 0x110000) :
    (Char.ofNat n).val.toNat = n := by
  have hv : n.isValidChar := h
  rw [Char.ofNat, dif_pos hv]
  rfl

/-- A byte that continues a character. -/
def IsNext (b : UInt8) : Prop := 0x80 ≤ b.toNat ∧ b.toNat ≤ 0xBF

section Width

variable {a b c d : UInt8}

theorem encode_two (ha : 0xC2 ≤ a.toNat ∧ a.toNat < 0xE0) (hb : IsNext b) :
    String.utf8EncodeChar (Char.ofNat ((a.toNat - 0xC0) * 64 + (b.toNat - 0x80))) = [a, b] := by
  unfold IsNext at hb
  unfold String.utf8EncodeChar
  rw [toNat_ofNat (by omega)]
  simp only
  rw [if_neg (by omega), if_pos (by omega)]
  simp only [List.cons.injEq, and_true, ← UInt8.toNat_inj, UInt8.toNat_ofNat']
  omega

theorem encode_three (ha : 0xE0 ≤ a.toNat ∧ a.toNat < 0xF0) (hb : IsNext b)
    (hlow : a.toNat = 0xE0 → 0xA0 ≤ b.toNat) (hhigh : a.toNat = 0xED → b.toNat ≤ 0x9F)
    (hc : IsNext c) :
    String.utf8EncodeChar (Char.ofNat
      (((a.toNat - 0xE0) * 64 + (b.toNat - 0x80)) * 64 + (c.toNat - 0x80))) = [a, b, c] := by
  unfold IsNext at hb hc
  unfold String.utf8EncodeChar
  rw [toNat_ofNat (by omega)]
  simp only
  rw [if_neg (by omega), if_neg (by omega), if_pos (by omega)]
  simp only [List.cons.injEq, and_true, ← UInt8.toNat_inj, UInt8.toNat_ofNat']
  omega

theorem encode_four (ha : 0xF0 ≤ a.toNat ∧ a.toNat < 0xF5) (hb : IsNext b)
    (hlow : a.toNat = 0xF0 → 0x90 ≤ b.toNat) (hhigh : a.toNat = 0xF4 → b.toNat ≤ 0x8F)
    (hc : IsNext c) (hd : IsNext d) :
    String.utf8EncodeChar (Char.ofNat
      ((((a.toNat - 0xF0) * 64 + (b.toNat - 0x80)) * 64 + (c.toNat - 0x80)) * 64
        + (d.toNat - 0x80))) = [a, b, c, d] := by
  unfold IsNext at hb hc hd
  unfold String.utf8EncodeChar
  rw [toNat_ofNat (by omega)]
  simp only
  rw [if_neg (by omega), if_neg (by omega), if_neg (by omega)]
  simp only [List.cons.injEq, and_true, ← UInt8.toNat_inj, UInt8.toNat_ofNat']
  omega

end Width

namespace Pending

/-- What is pending behind a byte that does not complete the character. -/
def next (p : Pending) (b : UInt8) : Pending :=
  ⟨p.first, p.seen + 1, p.owed - 1, 0x80, 0xBF, p.code * 64 + (b.toNat - 0x80)⟩

/-- The bytes that complete a character, and its code point. -/
inductive Completes : Pending → List UInt8 → Nat → Prop where
  | last {p : Pending} {b : UInt8} (h : p.low ≤ b ∧ b ≤ p.high) (howed : p.owed = 1) :
    Completes p [b] (p.code * 64 + (b.toNat - 0x80))
  | more {p : Pending} {b : UInt8} {rest : List UInt8} {n : Nat} (h : p.low ≤ b ∧ b ≤ p.high)
    (howed : p.owed ≠ 1) (hrest : Completes (p.next b) rest n) : Completes p (b :: rest) n

theorem isNext_iff {b : UInt8} : 0x80 ≤ b ∧ b ≤ 0xBF ↔ IsNext b :=
  and_congr UInt8.le_iff_toNat_le UInt8.le_iff_toNat_le

section Owed

variable {first low high : UInt8} {seen code n : Nat} {rest : List UInt8}

theorem completes_one :
    Completes ⟨first, seen, 1, low, high, code⟩ rest n ↔
      ∃ b, (low ≤ b ∧ b ≤ high) ∧ rest = [b] ∧ n = code * 64 + (b.toNat - 0x80) := by
  constructor
  · intro h
    cases h with
    | last h => exact ⟨_, h, rfl, rfl⟩
    | more _ hne => exact absurd rfl hne
  · rintro ⟨b, h, rfl, hn⟩
    rw [hn]
    exact .last h rfl

theorem completes_two :
    Completes ⟨first, seen, 2, low, high, code⟩ rest n ↔
      ∃ b c, (low ≤ b ∧ b ≤ high) ∧ IsNext c ∧ rest = [b, c] ∧
        n = (code * 64 + (b.toNat - 0x80)) * 64 + (c.toNat - 0x80) := by
  constructor
  · intro h
    cases h with
    | last _ he => exact absurd he nofun
    | more h _ hrest =>
      obtain ⟨c, hc, rfl, hn⟩ := completes_one.1 hrest
      exact ⟨_, c, h, isNext_iff.1 hc, rfl, hn⟩
  · rintro ⟨b, c, h, hc, rfl, hn⟩
    rw [hn]
    exact .more h nofun (completes_one.2 ⟨c, isNext_iff.2 hc, rfl, rfl⟩)

theorem completes_three :
    Completes ⟨first, seen, 3, low, high, code⟩ rest n ↔
      ∃ b c d, (low ≤ b ∧ b ≤ high) ∧ IsNext c ∧ IsNext d ∧ rest = [b, c, d] ∧
        n = ((code * 64 + (b.toNat - 0x80)) * 64 + (c.toNat - 0x80)) * 64 + (d.toNat - 0x80) := by
  constructor
  · intro h
    cases h with
    | last _ he => exact absurd he nofun
    | more h _ hrest =>
      obtain ⟨c, d, hc, hd, rfl, hn⟩ := completes_two.1 hrest
      exact ⟨_, c, d, h, isNext_iff.1 hc, hd, rfl, hn⟩
  · rintro ⟨b, c, d, h, hc, hd, rfl, hn⟩
    rw [hn]
    exact .more h nofun (completes_two.2 ⟨c, d, isNext_iff.2 hc, hd, rfl, rfl⟩)

end Owed

theorem ofFirst_eq_some {a : UInt8} {p : Pending} :
    ofFirst a = some p ↔
      (0xC2 ≤ a.toNat ∧ a.toNat < 0xE0) ∧ p = ⟨a, 1, 1, 0x80, 0xBF, a.toNat - 0xC0⟩ ∨
      (0xE0 ≤ a.toNat ∧ a.toNat < 0xF0) ∧ p = ⟨a, 1, 2, if a = 0xE0 then 0xA0 else 0x80,
        if a = 0xED then 0x9F else 0xBF, a.toNat - 0xE0⟩ ∨
      (0xF0 ≤ a.toNat ∧ a.toNat < 0xF5) ∧ p = ⟨a, 1, 3, if a = 0xF0 then 0x90 else 0x80,
        if a = 0xF4 then 0x8F else 0xBF, a.toNat - 0xF0⟩ := by
  unfold ofFirst
  simp only [UInt8.lt_iff_toNat_lt, UInt8.reduceToNat]
  constructor
  · intro h
    split at h
    · cases h
    split at h
    · cases h
      exact .inl ⟨by omega, rfl⟩
    split at h
    · cases h
      exact .inr (.inl ⟨by omega, rfl⟩)
    split at h
    · cases h
      exact .inr (.inr ⟨by omega, rfl⟩)
    · cases h
  · rintro (⟨h, rfl⟩ | ⟨h, rfl⟩ | ⟨h, rfl⟩)
    · rw [if_neg (by omega), if_pos (by omega)]
    · rw [if_neg (by omega), if_neg (by omega), if_pos (by omega)]
    · rw [if_neg (by omega), if_neg (by omega), if_neg (by omega), if_pos (by omega)]

/-- What opens a character, together with what completes it, is its encoding. -/
theorem Completes.encode {a : UInt8} {p : Pending} {rest : List UInt8} {n : Nat}
    (h : p.Completes rest n) (hp : ofFirst a = some p) :
    String.utf8EncodeChar (Char.ofNat n) = a :: rest := by
  rcases ofFirst_eq_some.1 hp with ⟨ha, rfl⟩ | ⟨ha, rfl⟩ | ⟨ha, rfl⟩
  · obtain ⟨b, hb, rfl, hn⟩ := completes_one.1 h
    rw [hn]
    exact encode_two ha (isNext_iff.1 hb)
  · obtain ⟨b, c, ⟨hlow, hhigh⟩, hc, rfl, hn⟩ := completes_two.1 h
    rw [hn]
    rw [UInt8.le_iff_toNat_le, apply_ite UInt8.toNat] at hlow hhigh
    simp only [UInt8.reduceToNat, ← UInt8.toNat_inj] at hlow hhigh
    refine encode_three ha ⟨?_, ?_⟩ ?_ ?_ hc
    · split at hlow <;> omega
    · split at hhigh <;> omega
    · split at hlow <;> omega
    · split at hhigh <;> omega
  · obtain ⟨b, c, d, ⟨hlow, hhigh⟩, hc, hd, rfl, hn⟩ := completes_three.1 h
    rw [hn]
    rw [UInt8.le_iff_toNat_le, apply_ite UInt8.toNat] at hlow hhigh
    simp only [UInt8.reduceToNat, ← UInt8.toNat_inj] at hlow hhigh
    refine encode_four ha ⟨?_, ?_⟩ ?_ ?_ hc hd
    · split at hlow <;> omega
    · split at hhigh <;> omega
    · split at hlow <;> omega
    · split at hhigh <;> omega

/-- The encoding of a character that is not ASCII opens it and completes it. -/
theorem exists_completes {c : Char} (hc : 0x80 ≤ c.val.toNat) :
    ∃ a p rest, String.utf8EncodeChar c = a :: rest ∧ ofFirst a = some p ∧
      p.Completes rest c.val.toNat := by
  have hv : c.val.toNat < 0xD800 ∨ 0xDFFF < c.val.toNat ∧ c.val.toNat < 0x110000 := c.valid
  unfold String.utf8EncodeChar
  generalize c.val.toNat = v at hc hv
  have hnext (n : Nat) : IsNext (UInt8.ofNat (n % 64 + 128)) := by
    unfold IsNext
    rw [UInt8.toNat_ofNat']
    omega
  simp only
  rw [if_neg (by omega)]
  by_cases h2 : v ≤ 0x7ff
  · rw [if_pos h2]
    refine ⟨_, _, _, rfl, ofFirst_eq_some.2 (.inl ⟨?_, rfl⟩), completes_one.2
      ⟨_, isNext_iff.2 (hnext v), rfl, ?_⟩⟩
    · rw [UInt8.toNat_ofNat']
      omega
    · rw [UInt8.toNat_ofNat', UInt8.toNat_ofNat']
      omega
  rw [if_neg h2]
  by_cases h3 : v ≤ 0xffff
  · rw [if_pos h3]
    refine ⟨_, _, _, rfl, ofFirst_eq_some.2 (.inr (.inl ⟨?_, rfl⟩)), completes_two.2
      ⟨_, _, ⟨?_, ?_⟩, hnext v, rfl, ?_⟩⟩
    · rw [UInt8.toNat_ofNat']
      omega
    · rw [UInt8.le_iff_toNat_le, apply_ite UInt8.toNat]
      simp only [UInt8.reduceToNat, ← UInt8.toNat_inj, UInt8.toNat_ofNat']
      split <;> omega
    · rw [UInt8.le_iff_toNat_le, apply_ite UInt8.toNat]
      simp only [UInt8.reduceToNat, ← UInt8.toNat_inj, UInt8.toNat_ofNat']
      split <;> omega
    · simp only [UInt8.toNat_ofNat']
      omega
  · rw [if_neg h3]
    refine ⟨_, _, _, rfl, ofFirst_eq_some.2 (.inr (.inr ⟨?_, rfl⟩)), completes_three.2
      ⟨_, _, _, ⟨?_, ?_⟩, hnext _, hnext v, rfl, ?_⟩⟩
    · rw [UInt8.toNat_ofNat']
      omega
    · rw [UInt8.le_iff_toNat_le, apply_ite UInt8.toNat]
      simp only [UInt8.reduceToNat, ← UInt8.toNat_inj, UInt8.toNat_ofNat']
      split <;> omega
    · rw [UInt8.le_iff_toNat_le, apply_ite UInt8.toNat]
      simp only [UInt8.reduceToNat, ← UInt8.toNat_inj, UInt8.toNat_ofNat']
      split <;> omega
    · simp only [UInt8.toNat_ofNat']
      omega

section Behind

variable {a b : UInt8} {rest begun : List UInt8} {p : Pending}

theorem ofFirst_pos (h : ofFirst b = some p) : ¬ b < 0x80 ∧ 0x80 ≤ p.low.toNat := by
  simp only [UInt8.lt_iff_toNat_lt, UInt8.reduceToNat]
  rcases ofFirst_eq_some.1 h with ⟨hb, rfl⟩ | ⟨hb, rfl⟩ | ⟨hb, rfl⟩
  · exact ⟨by omega, Nat.le_refl _⟩
  · refine ⟨by omega, ?_⟩
    rw [apply_ite UInt8.toNat]
    split <;> decide
  · refine ⟨by omega, ?_⟩
    rw [apply_ite UInt8.toNat]
    split <;> decide

theorem completes_cons {n : Nat} (howed : p.owed ≠ 1) :
    p.Completes (b :: rest) n ↔ (p.low ≤ b ∧ b ≤ p.high) ∧ (p.next b).Completes rest n := by
  constructor
  · intro h
    cases h with
    | last _ hone => exact absurd hone howed
    | more hb _ hrest => exact ⟨hb, hrest⟩
  · rintro ⟨hb, hrest⟩
    exact .more hb howed hrest

/-- `p` is pending behind `begun`: what completes it is what makes the encoding of a character of it. -/
structure IsBehind (p : Pending) (begun : List UInt8) : Prop where
  first : begun.head? = some p.first
  seen : p.seen = begun.length
  notAscii : 0x80 ≤ p.low.toNat
  range : p.low ≤ p.high
  owed : p.owed ≠ 0
  encode : ∀ rest n, p.Completes rest n → begun ++ rest = String.utf8EncodeChar (Char.ofNat n)
  completes : ∀ rest c, begun ++ rest = String.utf8EncodeChar c → ∃ n, p.Completes rest n

theorem range_next : (0x80 : UInt8) ≤ 0xBF := by decide

/-- A first byte narrows the range of the second at one end at most. -/
theorem range_narrowed {x y low high : UInt8} (hne : x ≠ y) (hlow : low ≤ 0xBF)
    (hhigh : 0x80 ≤ high) :
    (if a = x then low else 0x80) ≤ if a = y then high else 0xBF := by
  by_cases hx : a = x
  · rw [if_pos hx, if_neg (hx ▸ hne)]
    exact hlow
  · rw [if_neg hx]
    split
    · exact hhigh
    · exact range_next

/-- The encoding of a character is an ASCII byte, or is opened by its first byte. -/
theorem opens_cases {c : Char} (h : b :: rest = String.utf8EncodeChar c) :
    b < 0x80 ∨ ∃ p n, ofFirst b = some p ∧ p.Completes rest n := by
  by_cases hc : c.val.toNat < 0x80
  · have he : String.utf8EncodeChar c = [UInt8.ofNat c.val.toNat] := if_pos (by omega)
    obtain ⟨rfl, -⟩ := List.cons.inj (h.trans he)
    refine .inl ?_
    rw [UInt8.lt_iff_toNat_lt, UInt8.toNat_ofNat', Nat.mod_eq_of_lt (by omega)]
    exact hc
  · obtain ⟨a, p, rest', he, hp, hcompletes⟩ := exists_completes (Nat.le_of_not_lt hc)
    obtain ⟨rfl, rfl⟩ := List.cons.inj (h.trans he)
    exact .inr ⟨p, _, hp, hcompletes⟩

theorem isBehind_first (h : ofFirst a = some p) : p.IsBehind [a] := by
  have hfields : p.first = a ∧ p.seen = 1 ∧ p.low ≤ p.high ∧ p.owed ≠ 0 := by
    rcases ofFirst_eq_some.1 h with ⟨-, rfl⟩ | ⟨-, rfl⟩ | ⟨-, rfl⟩
    · exact ⟨rfl, rfl, range_next, nofun⟩
    · exact ⟨rfl, rfl, range_narrowed (by decide) (by decide) (by decide), nofun⟩
    · exact ⟨rfl, rfl, range_narrowed (by decide) (by decide) (by decide), nofun⟩
  obtain ⟨hfirst, hseen, hrange, howed⟩ := hfields
  obtain ⟨hascii, hlow⟩ := ofFirst_pos h
  refine ⟨congrArg some hfirst.symm, hseen, hlow, hrange, howed, fun _ _ hn => (hn.encode h).symm,
    fun rest c hc => ?_⟩
  rcases opens_cases hc with ha | ⟨p', n, hp', hn⟩
  · exact absurd ha hascii
  · obtain rfl : p = p' := Option.some.inj (h.symm.trans hp')
    exact ⟨n, hn⟩

theorem IsBehind.next (h : p.IsBehind begun) (hb : p.low ≤ b ∧ b ≤ p.high) (howed : p.owed ≠ 1) :
    (p.next b).IsBehind (begun ++ [b]) where
  first := by
    rw [List.head?_append, h.first]
    rfl
  seen := by
    rw [List.length_append, ← h.seen]
    rfl
  notAscii := Nat.le_refl _
  range := range_next
  owed := by
    have := h.owed
    show p.owed - 1 ≠ 0
    omega
  encode rest n hn := by
    rw [List.append_assoc]
    exact h.encode _ _ (.more hb howed hn)
  completes rest c hc := by
    rw [List.append_assoc] at hc
    obtain ⟨n, hn⟩ := h.completes _ _ hc
    exact ⟨n, ((completes_cons howed).1 hn).2⟩

end Behind

end Pending

namespace Reading

/-- Reads bytes one after the other. -/
def run (r : Reading) (bytes : List UInt8) : Except Fault Reading := bytes.foldlM step r

variable {r r' : Reading} {b : UInt8} {bytes begun more : List UInt8}

theorem run_cons_ok (h : r.step b = .ok r') : r.run (b :: bytes) = r'.run bytes := by
  rw [run, List.foldlM_cons, h]
  rfl

theorem run_cons_error {f : Fault} (h : r.step b = .error f) : r.run (b :: bytes) = .error f := by
  rw [run, List.foldlM_cons, h]
  rfl

theorem run_append_ok (h : r.run bytes = .ok r') : r.run (bytes ++ more) = r'.run more := by
  rw [run] at h
  rw [run, List.foldlM_append, h]
  rfl

theorem run_append_error {f : Fault} (h : r.run bytes = .error f) :
    r.run (bytes ++ more) = .error f := by
  rw [run] at h
  rw [run, List.foldlM_append, h]
  rfl

/-- Completed, a character is read. -/
theorem run_completes {p : Pending} {n : Nat} (h : p.Completes bytes n) (pos : Nat)
    (text : List Char) :
    run ⟨pos, text, some p⟩ bytes = .ok ⟨pos + bytes.length, Char.ofNat n :: text, none⟩ := by
  induction h generalizing pos with
  | last h howed =>
    rename_i p b
    have hs : step ⟨pos, text, some p⟩ b =
        .ok ⟨pos + 1, Char.ofNat (p.code * 64 + (b.toNat - 0x80)) :: text, none⟩ := by
      simp only [step, if_pos h, if_pos howed]
    rw [run_cons_ok hs]
    rfl
  | more h howed hrest ih =>
    rename_i p b rest n
    have hs : step ⟨pos, text, some p⟩ b = .ok ⟨pos + 1, text, some (p.next b)⟩ := by
      simp only [step, if_pos h, if_neg howed]
      rfl
    rw [run_cons_ok hs, ih (pos + 1), List.length_cons, Nat.add_assoc, Nat.add_comm 1]

theorem step_ascii (hb : b < 0x80) (pos : Nat) (text : List Char) :
    step ⟨pos, text, none⟩ b = .ok ⟨pos + 1, Char.ofNat b.toNat :: text, none⟩ := by
  simp only [step, if_pos hb]

theorem step_first {p : Pending} (h : Pending.ofFirst b = some p) (pos : Nat) (text : List Char) :
    step ⟨pos, text, none⟩ b = .ok ⟨pos + 1, text, some p⟩ := by
  simp only [step, if_neg (Pending.ofFirst_pos h).1, h]

theorem run_char (c : Char) (pos : Nat) (text : List Char) :
    ∃ pos', run ⟨pos, text, none⟩ (String.utf8EncodeChar c) = .ok ⟨pos', c :: text, none⟩ := by
  by_cases hc : c.val.toNat < 0x80
  · have he : String.utf8EncodeChar c = [UInt8.ofNat c.val.toNat] := if_pos (by omega)
    have hb : (UInt8.ofNat c.val.toNat).toNat = c.toNat := by
      rw [UInt8.toNat_ofNat']
      exact Nat.mod_eq_of_lt (by omega)
    have hlt : UInt8.ofNat c.val.toNat < 0x80 := by
      rw [UInt8.lt_iff_toNat_lt, hb]
      exact hc
    refine ⟨pos + 1, ?_⟩
    rw [he, run_cons_ok (step_ascii hlt pos text), hb, Char.ofNat_toNat]
    rfl
  · obtain ⟨a, p, rest, he, hp, h⟩ := Pending.exists_completes (Nat.le_of_not_lt hc)
    refine ⟨pos + 1 + rest.length, ?_⟩
    rw [he, run_cons_ok (step_first hp pos text), run_completes h]
    show Except.ok (Reading.mk _ (Char.ofNat c.toNat :: text) none) = _
    rw [Char.ofNat_toNat]

theorem run_encode (s : List Char) (pos : Nat) (text : List Char) :
    ∃ pos', run ⟨pos, text, none⟩ (encode s) = .ok ⟨pos', s.reverse ++ text, none⟩ := by
  induction s generalizing pos text with
  | nil => exact ⟨pos, rfl⟩
  | cons c s ih =>
    obtain ⟨pos₁, h₁⟩ := run_char c pos text
    obtain ⟨pos₂, h₂⟩ := ih pos₁ (c :: text)
    refine ⟨pos₂, ?_⟩
    rw [encode_cons, run_append_ok h₁, h₂, List.reverse_cons, List.append_assoc]
    rfl

theorem encode_singleton (c : Char) : encode [c] = String.utf8EncodeChar c :=
  List.append_nil _

theorem encode_ascii (hb : b < 0x80) : encode [Char.ofNat b.toNat] = [b] := by
  have hb : b.toNat < 0x80 := UInt8.lt_iff_toNat_lt.1 hb
  rw [encode_singleton]
  unfold String.utf8EncodeChar
  rw [toNat_ofNat (by omega)]
  simp only
  rw [if_pos (by omega), UInt8.ofNat_toNat]

/-- What a byte that is taken was: ASCII, or the first, a middle or the last one of a character. -/
theorem step_ok (hs : r.step b = .ok r') :
    (r.pending = none ∧ b < 0x80 ∧ r' = ⟨r.pos + 1, Char.ofNat b.toNat :: r.text, none⟩) ∨
    (∃ p, r.pending = none ∧ Pending.ofFirst b = some p ∧ r' = ⟨r.pos + 1, r.text, some p⟩) ∨
    (∃ p, r.pending = some p ∧ (p.low ≤ b ∧ b ≤ p.high) ∧ p.owed ≠ 1 ∧
      r' = ⟨r.pos + 1, r.text, some (p.next b)⟩) ∨
    ∃ p, r.pending = some p ∧ (p.low ≤ b ∧ b ≤ p.high) ∧ p.owed = 1 ∧
      r' = ⟨r.pos + 1, Char.ofNat (p.code * 64 + (b.toNat - 0x80)) :: r.text, none⟩ := by
  unfold Reading.step at hs
  split at hs
  · next hpending =>
    split at hs
    · next hb =>
      cases hs
      exact .inl ⟨hpending, hb, rfl⟩
    · split at hs
      · cases hs
      · next p hp =>
        cases hs
        exact .inr (.inl ⟨p, hpending, hp, rfl⟩)
  · next p hpending =>
    split at hs
    · next hb =>
      simp only at hs
      split at hs
      · next howed =>
        cases hs
        exact .inr (.inr (.inr ⟨p, hpending, hb, howed, rfl⟩))
      · next howed =>
        cases hs
        exact .inr (.inr (.inl ⟨p, hpending, hb, howed, rfl⟩))
    · cases hs

/-- What a byte that is refused was: one that opens nothing, or one that does not go on. -/
theorem step_error {f : Fault} (hs : r.step b = .error f) :
    (r.pending = none ∧ ¬ b < 0x80 ∧ Pending.ofFirst b = none ∧ f = ⟨r.pos, 1, b, .badStart⟩) ∨
    ∃ p, r.pending = some p ∧ ¬ (p.low ≤ b ∧ b ≤ p.high) ∧
      f = ⟨r.pos - p.seen, p.seen, p.first, .badContinuation⟩ := by
  unfold Reading.step at hs
  split at hs
  · next hpending =>
    split at hs
    · cases hs
    · next hascii =>
      split at hs
      · next hnone =>
        cases hs
        exact .inl ⟨hpending, hascii, hnone, rfl⟩
      · cases hs
  · next p hpending =>
    split at hs
    · simp only at hs
      split at hs <;> cases hs
    · next hb =>
      cases hs
      exact .inr ⟨p, hpending, hb, rfl⟩

/-- The reading has gone through `bytes`: a text, and behind it what begins the pending character. -/
structure IsAfter (r : Reading) (bytes begun : List UInt8) : Prop where
  split : bytes = encode r.text.reverse ++ begun
  pos : r.pos = bytes.length
  between : r.pending = none → begun = []
  inside : ∀ p, r.pending = some p → p.IsBehind begun

theorem isAfter_start : start.IsAfter [] [] := ⟨rfl, rfl, fun _ => rfl, nofun⟩

theorem IsAfter.step (h : r.IsAfter bytes begun) (hs : r.step b = .ok r') :
    ∃ begun', r'.IsAfter (bytes ++ [b]) begun' := by
  obtain ⟨hsplit, hpos, hbetween, hinside⟩ := h
  have hlength : r.pos + 1 = (bytes ++ [b]).length := by
    rw [List.length_append, ← hpos]
    rfl
  rcases step_ok hs with ⟨hpending, hb, rfl⟩ | ⟨p, hpending, hp, rfl⟩ |
    ⟨p, hpending, hb, howed, rfl⟩ | ⟨p, hpending, hb, howed, rfl⟩
  · obtain rfl := hbetween hpending
    refine ⟨[], ?_, hlength, fun _ => rfl, nofun⟩
    rw [List.reverse_cons, encode_append, encode_ascii hb, hsplit, List.append_nil, List.append_nil]
  · obtain rfl := hbetween hpending
    refine ⟨[b], by rw [hsplit, List.append_nil], hlength, nofun, fun p' hp' => ?_⟩
    obtain rfl : p = p' := Option.some.inj hp'
    exact Pending.isBehind_first hp
  · refine ⟨begun ++ [b], ?_, hlength, nofun, fun p' hp' => ?_⟩
    · rw [hsplit, List.append_assoc]
    · obtain rfl : p.next b = p' := Option.some.inj hp'
      exact (hinside p hpending).next hb howed
  · refine ⟨[], ?_, hlength, fun _ => rfl, nofun⟩
    rw [List.reverse_cons, encode_append, encode_singleton,
      ← (hinside p hpending).encode [b] _ (.last hb howed), hsplit, List.append_assoc,
      List.append_nil]

theorem IsAfter.run (h : r.IsAfter bytes begun) (hr : r.run more = .ok r') :
    ∃ begun', r'.IsAfter (bytes ++ more) begun' := by
  induction more generalizing r bytes begun with
  | nil =>
    cases hr
    exact ⟨begun, by rwa [List.append_nil]⟩
  | cons b more ih =>
    cases hs : r.step b with
    | error f =>
      rw [run_cons_error hs] at hr
      cases hr
    | ok r₁ =>
      rw [run_cons_ok hs] at hr
      obtain ⟨begun₁, h₁⟩ := h.step hs
      obtain ⟨begun', h'⟩ := ih h₁ hr
      exact ⟨begun', by rwa [List.append_assoc] at h'⟩

end Reading

theorem decode_eq (bytes : List UInt8) :
    decode bytes = (Reading.start.run bytes).bind Reading.finish := rfl

/-- Bytes are read as a text just if they are its encoding. -/
theorem decode_eq_ok {bytes : List UInt8} {s : List Char} :
    decode bytes = .ok s ↔ bytes = encode s := by
  rw [decode_eq]
  constructor
  · intro h
    cases hr : Reading.start.run bytes with
    | error f => rw [hr] at h; cases h
    | ok r =>
      rw [hr] at h
      obtain ⟨begun, hafter⟩ := Reading.isAfter_start.run hr
      obtain ⟨pos, text, pending⟩ := r
      cases pending with
      | none =>
        obtain rfl := hafter.between rfl
        cases h
        exact hafter.split.trans (List.append_nil _)
      | some p => cases h
  · rintro rfl
    obtain ⟨pos, hr⟩ := Reading.run_encode s 0 []
    have hr : Reading.start.run (encode s) = .ok ⟨pos, s.reverse, none⟩ := by
      rwa [List.append_nil] at hr
    rw [hr]
    show Except.ok s.reverse.reverse = _
    rw [List.reverse_reverse]

theorem decode_append {bytes : List UInt8} {s : List Char} (h : decode bytes = .ok s)
    (t : List Char) : decode (bytes ++ encode t) = .ok (s ++ t) := by
  rw [decode_eq_ok] at h ⊢
  rw [h, encode_append]

/-- Nothing that starts with an ASCII character mends bytes that are no text. -/
theorem decode_append_error {bytes more : List UInt8} {f : Fault} {b : UInt8}
    (h : decode bytes = .error f) (hb : b < 0x80) :
    ∃ f', decode (bytes ++ b :: more) = .error f' := by
  rw [decode_eq] at h ⊢
  cases hr : Reading.start.run bytes with
  | error f' => exact ⟨f', by rw [Reading.run_append_error hr]; rfl⟩
  | ok r =>
    obtain ⟨begun, hafter⟩ := Reading.isAfter_start.run hr
    rw [hr] at h
    obtain ⟨pos, text, pending⟩ := r
    cases pending with
    | none => cases h
    | some p =>
      have hlow : ¬ (p.low ≤ b ∧ b ≤ p.high) := by
        intro hle
        have hb : b.toNat < 0x80 := UInt8.lt_iff_toNat_lt.1 hb
        have hge := UInt8.le_iff_toNat_le.1 hle.1
        have hlow := (hafter.inside p rfl).notAscii
        omega
      have hs : Reading.step ⟨pos, text, some p⟩ b =
          .error ⟨pos - p.seen, p.seen, p.first, .badContinuation⟩ := if_neg hlow
      exact ⟨_, by rw [Reading.run_append_ok hr, Reading.run_cons_error hs]; rfl⟩

end EnvKeeper.Utf8
