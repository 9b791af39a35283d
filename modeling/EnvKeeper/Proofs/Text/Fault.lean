import EnvKeeper.Proofs.Text.Utf8
import Mathlib.Data.List.Infix

/-! Where bytes stop being a text. A fault starts behind the longest part that is a text, and takes in
what begins a character there. Its cause is that nothing begins there, that the bytes end before the
character does, or that the next byte does not go on with it. -/

namespace EnvKeeper.Utf8

def IsText (bytes : List UInt8) : Prop := ∃ s, bytes = encode s

/-- The encoding of some character begins with these bytes. -/
def Begins (bytes : List UInt8) : Prop := ∃ c : Char, bytes <+: String.utf8EncodeChar c

/-- The fault says where `bytes` stop being a text, and why. -/
structure Fault.Locates (f : Fault) (bytes : List UInt8) : Prop where
  text : IsText (bytes.take f.start)
  longest : ∀ n ≤ bytes.length, IsText (bytes.take n) → n ≤ f.start
  byte : bytes[f.start]? = some f.byte
  within : f.start + f.width ≤ bytes.length
  begun : Begins [f.byte] → Begins ((bytes.drop f.start).take f.width)
  widest : ∀ n, f.start + n ≤ bytes.length → Begins ((bytes.drop f.start).take n) → n ≤ f.width
  single : ¬ Begins [f.byte] → f.width = 1
  badStart : f.cause = .badStart ↔ ¬ Begins [f.byte]
  cutShort : f.cause = .cutShort ↔ Begins [f.byte] ∧ f.start + f.width = bytes.length

variable {a b : UInt8} {bytes begun more rest : List UInt8} {p : Pending} {r r' : Reading} {f f' : Fault}

theorem begins_iff : Begins bytes ↔ ∃ rest c, bytes ++ rest = String.utf8EncodeChar c := exists_comm

theorem Begins.mono (h : Begins more) (hpre : bytes <+: more) : Begins bytes :=
  h.imp fun _ hc => hpre.trans hc

theorem Fault.Locates.unique (h : f.Locates bytes) (h' : f'.Locates bytes) : f = f' := by
  obtain ⟨start, width, byte, cause⟩ := f
  obtain ⟨start', width', byte', cause'⟩ := f'
  have hstart : start = start' := by
    have hle := h'.longest start (Nat.le_trans (Nat.le_add_right _ _) h.within) h.text
    have hge := h.longest start' (Nat.le_trans (Nat.le_add_right _ _) h'.within) h'.text
    exact Nat.le_antisymm hle hge
  subst hstart
  obtain rfl : byte = byte' := Option.some.inj (h.byte.symm.trans h'.byte)
  have hwidth : width = width' := by
    by_cases hb : Begins [byte]
    · have hle := h'.widest width h.within (h.begun hb)
      have hge := h.widest width' h'.within (h'.begun hb)
      exact Nat.le_antisymm hle hge
    · exact (h.single hb).trans (h'.single hb).symm
  subst hwidth
  have hbad : cause = .badStart ↔ cause' = .badStart := h.badStart.trans h'.badStart.symm
  have hcut : cause = .cutShort ↔ cause' = .cutShort := h.cutShort.trans h'.cutShort.symm
  cases cause <;> cases cause' <;> simp_all

theorem Fault.Locates.not_isText (h : f.Locates bytes) : ¬ IsText bytes := by
  intro htext
  have hle := h.longest bytes.length (Nat.le_refl _) (by rwa [List.take_length])
  have hlt := (List.getElem?_eq_some_iff.1 h.byte).1
  omega

namespace Pending

theorem Completes.within {n : Nat} (h : p.Completes (b :: rest) n) : p.low ≤ b ∧ b ≤ p.high := by
  cases h with
  | last hb => exact hb
  | more hb => exact hb

theorem not_begins (hascii : ¬ b < 0x80) (h : ofFirst b = none) : ¬ Begins [b] := by
  intro hbegins
  obtain ⟨rest, c, hc⟩ := begins_iff.1 hbegins
  rcases opens_cases hc with hb | ⟨p, n, hp, -⟩
  · exact hascii hb
  · rw [h] at hp
    cases hp

theorem exists_completion (hrange : p.low ≤ p.high) (howed : p.owed ≠ 0) :
    ∃ rest n, p.Completes rest n := by
  obtain ⟨k, hk⟩ := Nat.exists_eq_succ_of_ne_zero howed
  induction k generalizing p with
  | zero => exact ⟨_, _, .last ⟨UInt8.le_refl _, hrange⟩ hk⟩
  | succ k ih =>
    have hnext : (p.next p.low).owed = k + 1 := by
      show p.owed - 1 = k + 1
      omega
    obtain ⟨rest, n, h⟩ := ih (p := p.next p.low) range_next (by omega) hnext
    exact ⟨_, n, .more ⟨UInt8.le_refl _, hrange⟩ (by omega) h⟩

theorem IsBehind.begins (h : p.IsBehind begun) : Begins begun := by
  obtain ⟨rest, n, hn⟩ := exists_completion h.range h.owed
  exact begins_iff.2 ⟨rest, _, h.encode rest n hn⟩

/-- Only a byte in the range of what is pending goes on with the character. -/
theorem IsBehind.within (h : p.IsBehind begun) (hbegins : Begins (begun ++ b :: rest)) :
    p.low ≤ b ∧ b ≤ p.high := by
  obtain ⟨x, c, hc⟩ := begins_iff.1 hbegins
  rw [List.append_assoc] at hc
  obtain ⟨n, hn⟩ := h.completes _ _ hc
  exact hn.within

end Pending

namespace Reading

/-- The bytes that are read for sure, whatever follows them. -/
def base (r : Reading) : Nat :=
  match r.pending with
  | none => r.pos
  | some p => r.pos - p.seen

theorem step_base (hs : r.step b = .ok r') : r.base ≤ r'.base := by
  rcases step_ok hs with ⟨hpending, -, rfl⟩ | ⟨p, hpending, hp, rfl⟩ |
    ⟨p, hpending, -, -, rfl⟩ | ⟨p, hpending, -, -, rfl⟩
  · simp only [base, hpending, Nat.le_add_right]
  · have hseen := (Pending.isBehind_first hp).seen
    simp only [base, hpending, hseen, List.length_singleton, Nat.add_sub_cancel, Nat.le_refl]
  · simp only [base, hpending, Pending.next]
    omega
  · simp only [base, hpending]
    omega

theorem base_of_step_error (hs : r.step b = .error f) : f.start = r.base := by
  rcases step_error hs with ⟨hpending, -, -, rfl⟩ | ⟨p, hpending, -, rfl⟩
  · simp only [base, hpending]
  · simp only [base, hpending]

theorem base_le_start (h : (r.run bytes).bind finish = .error f) : r.base ≤ f.start := by
  induction bytes generalizing r with
  | nil =>
    obtain ⟨pos, text, pending⟩ := r
    cases pending with
    | none => cases h
    | some p =>
      cases h
      exact Nat.le_refl _
  | cons b bytes ih =>
    cases hs : r.step b with
    | error f' =>
      rw [run_cons_error hs] at h
      cases h
      exact Nat.le_of_eq (base_of_step_error hs).symm
    | ok r₁ =>
      rw [run_cons_ok hs] at h
      exact Nat.le_trans (step_base hs) (ih h)

end Reading

/-- Longer parts of the bytes than that before the fault are no texts. -/
theorem le_start_of_isText (h : decode bytes = .error f) {n : Nat} (hn : n ≤ bytes.length)
    (htext : IsText (bytes.take n)) : n ≤ f.start := by
  obtain ⟨s, hs⟩ := htext
  rw [← decode_eq_ok, decode_eq] at hs
  cases hr : Reading.start.run (bytes.take n) with
  | error f' =>
    rw [hr] at hs
    cases hs
  | ok r =>
    -- a text leaves nothing pending, and the reading never goes back behind it
    obtain ⟨begun, hafter⟩ := Reading.isAfter_start.run hr
    have hpos : r.pos = n := by
      rw [hafter.pos, List.nil_append, List.length_take, Nat.min_eq_left hn]
    have hbase : r.base = n := by
      rw [hr] at hs
      obtain ⟨pos, text, pending⟩ := r
      cases pending with
      | none => exact hpos
      | some p => cases hs
    have hrest : (r.run (bytes.drop n)).bind Reading.finish = .error f := by
      rw [decode_eq, ← List.take_append_drop n bytes, Reading.run_append_ok hr] at h
      exact h
    rw [← hbase]
    exact Reading.base_le_start hrest

namespace Fault

variable {s : List Char}

theorem locates_single (hb : ¬ Begins [b])
    (hlongest : ∀ n ≤ (encode s ++ b :: more).length, IsText ((encode s ++ b :: more).take n) →
      n ≤ (encode s).length) :
    Locates ⟨(encode s).length, 1, b, .badStart⟩ (encode s ++ b :: more) where
  text := ⟨s, List.take_left⟩
  longest := hlongest
  byte := by rw [List.getElem?_append_right (Nat.le_refl _), Nat.sub_self, List.getElem?_cons_zero]
  within := by
    rw [List.length_append, List.length_cons]
    exact Nat.add_le_add_left (Nat.le_add_left _ _) _
  begun h := absurd h hb
  widest n _ h := by
    rw [List.drop_left] at h
    cases n with
    | zero => exact Nat.zero_le _
    | succ n => exact absurd (Begins.mono h (List.prefix_append [_] (more.take n))) hb
  single _ := rfl
  badStart := iff_of_true rfl hb
  cutShort := iff_of_false nofun fun h => hb h.1

/-- A character begins behind the text, and what follows, if anything does, does not go on with it. -/
theorem locates_begun {cause : Cause} (hp : p.IsBehind begun)
    (hmore : more = [] ∧ cause = .cutShort ∨
      (∃ c rest, more = c :: rest ∧ ¬ (p.low ≤ c ∧ c ≤ p.high)) ∧ cause = .badContinuation)
    (hlongest : ∀ n ≤ (encode s ++ (begun ++ more)).length,
      IsText ((encode s ++ (begun ++ more)).take n) → n ≤ (encode s).length) :
    Locates ⟨(encode s).length, begun.length, p.first, cause⟩ (encode s ++ (begun ++ more)) := by
  have hfirst : Begins [p.first] := by
    obtain ⟨q, rfl⟩ : ∃ q, begun = p.first :: q := List.head?_eq_some_iff.1 hp.first
    exact hp.begins.mono (List.prefix_append [_] q)
  refine ⟨⟨s, List.take_left⟩, hlongest, ?_, ?_, fun _ => ?_, fun n hn h => ?_,
    fun h => absurd hfirst h, iff_of_false ?_ (not_not.2 hfirst), ?_⟩
  · rw [List.getElem?_append_right (Nat.le_refl _), Nat.sub_self, ← List.head?_eq_getElem?,
      List.head?_append, hp.first]
    rfl
  · simp only [List.length_append]
    omega
  · rw [List.drop_left, List.take_left]
    exact hp.begins
  · -- one byte more would have to go on with the character
    rw [List.drop_left] at h
    by_contra hlt
    obtain ⟨k, rfl⟩ := Nat.exists_eq_add_of_lt (Nat.lt_of_not_le hlt)
    rcases hmore with ⟨rfl, -⟩ | ⟨⟨c, rest, rfl, hc⟩, -⟩
    · simp only [List.length_append, List.length_nil] at hn
      omega
    · rw [Nat.add_assoc, List.take_length_add_append, List.take_succ_cons] at h
      exact hc (hp.within h)
  · rcases hmore with ⟨-, rfl⟩ | ⟨-, rfl⟩ <;> nofun
  · simp only [List.length_append, hfirst, true_and]
    rcases hmore with ⟨rfl, rfl⟩ | ⟨⟨c, rest, rfl, -⟩, rfl⟩
    · exact iff_of_true rfl (by rw [List.length_nil]; omega)
    · refine iff_of_false nofun ?_
      rw [List.length_cons]
      omega

end Fault

namespace Reading

theorem IsAfter.locates_pending {cause : Cause} (h : r.IsAfter bytes begun)
    (hpending : r.pending = some p)
    (hmore : more = [] ∧ cause = .cutShort ∨
      (∃ c rest, more = c :: rest ∧ ¬ (p.low ≤ c ∧ c ≤ p.high)) ∧ cause = .badContinuation)
    (hlongest : ∀ n ≤ (bytes ++ more).length,
      IsText ((bytes ++ more).take n) → n ≤ r.pos - p.seen) :
    Fault.Locates ⟨r.pos - p.seen, p.seen, p.first, cause⟩ (bytes ++ more) := by
  have hp := h.inside p hpending
  have hstart : r.pos - p.seen = (encode r.text.reverse).length := by
    rw [h.pos, h.split, hp.seen, List.length_append, Nat.add_sub_cancel]
  rw [h.split, List.append_assoc, hstart] at hlongest
  rw [h.split, List.append_assoc, hstart, hp.seen]
  exact Fault.locates_begun hp hmore hlongest

theorem IsAfter.locates (h : r.IsAfter bytes begun) (hf : (r.run more).bind finish = .error f)
    (hlongest : ∀ n ≤ (bytes ++ more).length, IsText ((bytes ++ more).take n) → n ≤ f.start) :
    f.Locates (bytes ++ more) := by
  induction more generalizing r bytes begun with
  | nil =>
    obtain ⟨pos, text, pending⟩ := r
    cases pending with
    | none => cases hf
    | some p =>
      cases hf
      exact h.locates_pending rfl (.inl ⟨rfl, rfl⟩) hlongest
  | cons b more ih =>
    cases hs : r.step b with
    | ok r₁ =>
      rw [run_cons_ok hs] at hf
      obtain ⟨begun₁, h₁⟩ := h.step hs
      rw [List.append_cons] at hlongest ⊢
      exact ih h₁ hf hlongest
    | error f' =>
      rw [run_cons_error hs] at hf
      cases hf
      rcases step_error hs with ⟨hpending, hascii, hnone, rfl⟩ | ⟨p, hpending, hrange, rfl⟩
      · obtain rfl := h.between hpending
        have hsplit := h.split.trans (List.append_nil _)
        have hpos := h.pos
        rw [hsplit] at hpos hlongest ⊢
        simp only [hpos] at hlongest ⊢
        exact Fault.locates_single (Pending.not_begins hascii hnone) hlongest
      · exact h.locates_pending hpending (.inr ⟨⟨b, more, rfl, hrange⟩, rfl⟩) hlongest

end Reading

theorem decode_eq_error : decode bytes = .error f ↔ f.Locates bytes := by
  have hlocates (f' : Fault) (h : decode bytes = .error f') : f'.Locates bytes :=
    Reading.isAfter_start.locates (decode_eq bytes ▸ h) fun n => le_start_of_isText h
  constructor
  · exact hlocates f
  · intro h
    cases hd : decode bytes with
    | ok s => exact absurd ⟨s, decode_eq_ok.1 hd⟩ h.not_isText
    | error f' => rw [(hlocates f' hd).unique h]

end EnvKeeper.Utf8
