import EnvKeeper.Glob.Wildcard
import EnvKeeper.Proofs.Text.Name
import Mathlib.Data.List.TakeWhile

/-! What a set of a wildcard means: the characters and ranges between its brackets, or all others if `!`
comes first. It is read like this, but for one form. Empty ranges are dropped before the first character
is looked at, so a `!` behind them is taken for the sign. -/

namespace EnvKeeper

namespace Span

variable {c lo hi : Char} {s : List Char}

/-- A range starts wherever `-` and one more character follow. -/
@[elab_as_elim]
theorem cut {P : List Char → Prop} (nil : P [])
    (one : ∀ c s, (∀ hi t, s ≠ '-' :: hi :: t) → P s → P (c :: s))
    (range : ∀ lo hi s, P s → P (lo :: '-' :: hi :: s)) (s : List Char) : P s := by
  induction s using read.induct with
  | case1 => exact nil
  | case2 a => exact one a [] nofun nil
  | case3 a b => exact one a [b] nofun (one b [] nofun nil)
  | case4 a c s ih => exact range a c s ih
  | case5 a b c s hb ih => exact one a (b :: c :: s) (fun hi t he => hb (List.cons.inj he).1) ih

def live (s : List Char) : List Span := (read s).filter (!isEmpty ·)

theorem live_one (h : ∀ hi t, s ≠ '-' :: hi :: t) : live (c :: s) = .one c :: live s := by
  match s with
  | [] | [_] => rfl
  | b :: d :: s =>
    have hb : b ≠ '-' := fun he => h d s (he ▸ rfl)
    rw [live, read, if_neg hb]
    rfl

theorem live_range :
    live (lo :: '-' :: hi :: s) = if hi < lo then live s else .range lo hi :: live s := by
  rw [live, read, if_pos rfl, List.filter_cons]
  by_cases h : hi < lo <;> simp [isEmpty, h, live]

end Span

namespace Wildcard

open Token

variable {c d lo hi : Char} {s singles rest : List Char} {negated : Bool}

/-- The inside `s` of a set lists `c`, on its own or in a range. -/
inductive Lists : List Char → Char → Prop where
  | within {c lo hi : Char} {s : List Char} (hlo : lo ≤ c) (hhi : c ≤ hi) :
    Lists (lo :: '-' :: hi :: s) c
  | pastRange {c lo hi : Char} {s : List Char} (h : Lists s c) : Lists (lo :: '-' :: hi :: s) c
  | self {c : Char} {s : List Char} (hs : ∀ hi t, s ≠ '-' :: hi :: t) : Lists (c :: s) c
  | pastOne {c d : Char} {s : List Char} (hs : ∀ hi t, s ≠ '-' :: hi :: t) (h : Lists s c) :
    Lists (d :: s) c

theorem not_lists_nil : ¬ Lists [] c := nofun

theorem lists_one (hs : ∀ hi t, s ≠ '-' :: hi :: t) : Lists (d :: s) c ↔ c = d ∨ Lists s c := by
  constructor
  · intro h
    cases h with
    | within => exact absurd rfl (hs _ _)
    | pastRange => exact absurd rfl (hs _ _)
    | self => exact .inl rfl
    | pastOne _ h => exact .inr h
  · rintro (rfl | h)
    · exact .self hs
    · exact .pastOne hs h

theorem lists_range : Lists (lo :: '-' :: hi :: s) c ↔ lo ≤ c ∧ c ≤ hi ∨ Lists s c := by
  constructor
  · intro h
    cases h with
    | within hlo hhi => exact .inl ⟨hlo, hhi⟩
    | pastRange h => exact .inr h
    | self hs => exact absurd rfl (hs _ _)
    | pastOne hs => exact absurd rfl (hs _ _)
  · rintro (⟨hlo, hhi⟩ | h)
    · exact .within hlo hhi
    · exact .pastRange h

theorem lists_empty (h : hi < lo) : Lists (lo :: '-' :: hi :: s) c ↔ Lists s c :=
  lists_range.trans (or_iff_right fun ⟨hlo, hhi⟩ => absurd (Char.le_trans hlo hhi) (Char.not_le.2 h))

theorem any_live : (Span.live s).any (·.has c) = true ↔ Lists s c := by
  induction s using Span.cut with
  | nil => exact iff_of_false (by simp [Span.live, Span.read]) not_lists_nil
  | one d s hs ih => simp [Span.live_one hs, lists_one hs, Span.has, ← ih]
  | range lo hi s ih =>
    by_cases h : hi < lo
    · rw [Span.live_range, if_pos h, lists_empty h, ih]
    · simp [Span.live_range, if_neg h, lists_range, Span.has, ← ih]

/-- What a set means that lists `s`, or is not to. -/
def Denotes (negated : Bool) (s : List Char) (c : Char) : Prop := Lists s c ↔ negated = false

/-- Before the `!` at which `s` turns stand empty ranges only. What it is not to take then are `singles`
and what `rest` lists; a range that starts with the `!` leaves its hyphen and its end. -/
inductive Turns : List Char → List Char → List Char → Prop where
  | one {s : List Char} (hs : ∀ hi t, s ≠ '-' :: hi :: t) : Turns ('!' :: s) [] s
  | range {hi : Char} {s : List Char} (h : '!' ≤ hi) : Turns ('!' :: '-' :: hi :: s) ['-', hi] s
  | empty {lo hi : Char} {s singles rest : List Char} (h : hi < lo) (hs : Turns s singles rest) :
    Turns (lo :: '-' :: hi :: s) singles rest

def IsTurned (s : List Char) : Prop := ∃ singles rest, Turns s singles rest

inductive Takes : Bool → List Char → Char → Prop where
  | listed {s : List Char} {c : Char} (h : ¬ IsTurned s) (hc : Lists s c) : Takes false s c
  | turned {s singles rest : List Char} {c : Char} (h : Turns s singles rest) (hs : c ∉ singles)
    (hr : ¬ Lists rest c) : Takes false s c
  | unlisted {s : List Char} {c : Char} (hc : ¬ Lists s c) : Takes true s c

theorem Turns.live (h : Turns s singles rest) :
    singles = [] ∧ Span.live s = .one '!' :: Span.live rest ∨
      ∃ hi, singles = ['-', hi] ∧ Span.live s = .range '!' hi :: Span.live rest := by
  induction h with
  | one hs => exact .inl ⟨rfl, Span.live_one hs⟩
  | range h => exact .inr ⟨_, rfl, by rw [Span.live_range, if_neg (Char.not_lt.2 h)]⟩
  | empty h _ ih => rwa [Span.live_range, if_pos h]

theorem isTurned_of_live {l : List Span} :
    (Span.live s = .one '!' :: l → IsTurned s) ∧
      ∀ hi, Span.live s = .range '!' hi :: l → IsTurned s := by
  induction s using Span.cut with
  | nil => exact ⟨nofun, fun _ => nofun⟩
  | one d s hs ih =>
    rw [Span.live_one hs]
    refine ⟨fun h => ?_, fun _ => nofun⟩
    cases h
    exact ⟨_, _, .one hs⟩
  | range lo hi' s ih =>
    rw [Span.live_range]
    by_cases h : hi' < lo
    · rw [if_pos h]
      have hpast : IsTurned s → IsTurned (lo :: '-' :: hi' :: s) := fun ⟨_, _, ht⟩ =>
        ⟨_, _, .empty h ht⟩
      exact ⟨fun hl => hpast (ih.1 hl), fun hi hl => hpast (ih.2 hi hl)⟩
    · rw [if_neg h]
      refine ⟨nofun, fun hi hl => ?_⟩
      cases hl
      exact ⟨_, _, .range (Char.not_lt.1 h)⟩

theorem ofSet_of_head? (h : s.head? ≠ some '!') :
    ofSet s = match Span.live s with
      | .one '!' :: l => .set true l
      | .range '!' hi :: l => .set true (.one '-' :: .one hi :: l)
      | l => .set false l := by
  unfold ofSet
  split
  · exact absurd rfl h
  · rfl

def inside (negated : Bool) (s : List Char) : List Char := if negated then '!' :: s else s

theorem has_ofSet_turned (h : s.head? ≠ some '!') (ht : Turns s singles rest) :
    (ofSet s).has c = true ↔ c ∉ singles ∧ ¬ Lists rest c := by
  rw [ofSet_of_head? h, ← any_live]
  rcases ht.live with ⟨rfl, hl⟩ | ⟨hi, rfl, hl⟩
  · simp [hl, Token.has]
  · simp [hl, Token.has, Span.has, and_assoc]

theorem has_ofSet_listed (h : s.head? ≠ some '!') (ht : ¬ IsTurned s) :
    (ofSet s).has c = true ↔ Lists s c := by
  have hread : ofSet s = .set false (Span.live s) := by
    rw [ofSet_of_head? h]
    split
    · next hl => exact absurd (isTurned_of_live.1 hl) ht
    · next hl => exact absurd (isTurned_of_live.2 _ hl) ht
    · rfl
  rw [hread, ← any_live, Token.has]
  cases (Span.live s).any (·.has c) <;> decide

theorem has_ofSet_unlisted : (ofSet (inside true s)).has c = true ↔ ¬ Lists s c := by
  have hread : ofSet (inside true s) = .set true (Span.live s) := rfl
  rw [hread, ← any_live, Token.has]
  cases (Span.live s).any (·.has c) <;> decide

/-- A set is read so that it takes what it should, or what it takes when it is turned. -/
theorem has_ofSet (h : negated = false → s.head? ≠ some '!') :
    (ofSet (inside negated s)).has c = true ↔ Takes negated s c := by
  constructor
  · intro hc
    cases negated with
    | true => exact .unlisted (has_ofSet_unlisted.1 hc)
    | false =>
      by_cases ht : IsTurned s
      · obtain ⟨singles, rest, ht⟩ := ht
        obtain ⟨hs, hr⟩ := (has_ofSet_turned (h rfl) ht).1 hc
        exact .turned ht hs hr
      · exact .listed ht ((has_ofSet_listed (h rfl) ht).1 hc)
  · intro hc
    cases hc with
    | listed ht hc => exact (has_ofSet_listed (h rfl) ht).2 hc
    | turned ht hs hr => exact (has_ofSet_turned (h rfl) ht).2 ⟨hs, hr⟩
    | unlisted hc => exact has_ofSet_unlisted.2 hc

theorem takes_of_not_turned (h : negated = false → ¬ IsTurned s) :
    Takes negated s c ↔ Denotes negated s c := by
  unfold Denotes
  constructor
  · intro hc
    cases hc with
    | listed _ hc => exact iff_of_true hc rfl
    | turned ht => exact absurd ⟨_, _, ht⟩ (h rfl)
    | unlisted hc => exact iff_of_false hc nofun
  · intro hc
    cases negated with
    | false => exact .listed (h rfl) (hc.2 rfl)
    | true => exact .unlisted fun hl => nomatch hc.1 hl

/-- The space comes before `!`, so it is not among what turning adds to a set. -/
theorem Turns.space (h : Turns s singles rest) :
    ' ' ∉ singles ∧ (Lists s ' ' ↔ Lists rest ' ') := by
  induction h with
  | one hs => exact ⟨List.not_mem_nil, by simp [lists_one hs]⟩
  | @range hi s h =>
    have hi_ne : ' ' ≠ hi := fun he => absurd (he ▸ h) (by decide)
    refine ⟨by simp [hi_ne], ?_⟩
    rw [lists_range]
    exact or_iff_right fun hr => absurd hr.1 (by decide)
  | empty h _ ih => exact ⟨ih.1, (lists_empty h).trans ih.2⟩

/-- A set takes what it means just if it is negated or is not turned. -/
theorem takes_iff_denotes_iff :
    (∀ c, Takes negated s c ↔ Denotes negated s c) ↔ (negated = false → ¬ IsTurned s) := by
  refine ⟨?_, fun h _ => takes_of_not_turned h⟩
  rintro h rfl ⟨singles, rest, ht⟩
  obtain ⟨hs, hspace⟩ := ht.space
  have hmeant : Denotes false s ' ' ↔ Lists s ' ' := iff_true_right rfl
  have htaken : Takes false s ' ' ↔ ¬ Lists s ' ' := by
    constructor
    · intro hc
      cases hc with
      | listed h => exact absurd ⟨_, _, ht⟩ h
      | turned ht' _ hr => exact mt ht'.space.2.1 hr
    · exact fun hl => .turned ht hs (mt hspace.2 hl)
  exact iff_not_self (hmeant.symm.trans ((h ' ').symm.trans htaken))

/-- Behind a `[` comes a set with the inside `seq`, its `]`, and `rest`. -/
structure Closed (s : List Char) (negated : Bool) (seq rest : List Char) : Prop where
  cut : s = inside negated seq ++ ']' :: rest
  ne_nil : seq ≠ []
  first : ']' ∉ seq.tail
  bare : negated = false → seq.head? ≠ some '!'

theorem splitSet?_eq_some {front i : List Char} : splitSet? front s = some (i, rest) ↔
    ∃ body, i = front ++ body ∧ s = body ++ ']' :: rest ∧ ']' ∉ body := by
  have hsplit := List.takeWhile_append_dropWhile (p := (· != ']')) (l := s)
  have hbody : ']' ∉ s.takeWhile (· != ']') := fun h => by simpa using List.mem_takeWhile_imp h
  constructor
  · intro h
    unfold splitSet? at h
    split at h
    · cases h
    · next e t hd =>
      cases h
      have he : e = ']' := by simpa using eq_false_of_dropWhile hd
      rw [hd, he] at hsplit
      exact ⟨_, rfl, hsplit.symm, hbody⟩
  · rintro ⟨body, rfl, rfl, hb⟩
    have hne : ∀ x ∈ body, (x != ']') = true := fun x hx => bne_iff_ne.2 fun he => hb (he ▸ hx)
    obtain ⟨ht, hd⟩ := span_append (r := ']' :: rest) hne fun c hc => by cases hc; decide
    rw [splitSet?, ht, hd]

theorem closed_of_closeSet? {i : List Char} (h : closeSet? s = some (i, rest)) :
    ∃ negated seq, i = inside negated seq ∧ Closed s negated seq rest := by
  unfold closeSet? at h
  split at h
  · obtain ⟨body, rfl, rfl, hb⟩ := splitSet?_eq_some.1 h
    exact ⟨true, ']' :: body, rfl, rfl, List.cons_ne_nil _ _, hb, nofun⟩
  · next t hfirst =>
    obtain ⟨body, rfl, rfl, hb⟩ := splitSet?_eq_some.1 h
    refine ⟨true, body, rfl, rfl, ?_, mt List.mem_of_mem_tail hb, nofun⟩
    rintro rfl
    exact hfirst rest rfl
  · obtain ⟨body, rfl, rfl, hb⟩ := splitSet?_eq_some.1 h
    exact ⟨false, ']' :: body, rfl, rfl, List.cons_ne_nil _ _, hb, fun _ => by simp⟩
  · next hsign hfirst =>
    obtain ⟨_, rfl, rfl, hb⟩ := splitSet?_eq_some.1 h
    refine ⟨false, i, rfl, rfl, ?_, mt List.mem_of_mem_tail hb, fun _ => ?_⟩
    · rintro rfl
      exact hfirst rest rfl
    · intro hs
      obtain ⟨t, rfl⟩ := List.head?_eq_some_iff.1 hs
      exact hsign (t ++ ']' :: rest) rfl

theorem Closed.closeSet? {seq : List Char} (h : Closed s negated seq rest) :
    closeSet? s = some (inside negated seq, rest) := by
  obtain ⟨x, body, rfl⟩ := List.exists_cons_of_ne_nil h.ne_nil
  obtain ⟨rfl, -, hb, hbare⟩ := h
  rw [List.tail_cons] at hb
  have hcut {front : List Char} (t : List Char) (ht : ']' ∉ t) :
      splitSet? front (t ++ ']' :: rest) = some (front ++ t, rest) :=
    splitSet?_eq_some.2 ⟨t, rfl, rfl, ht⟩
  cases negated with
  | true =>
    by_cases hx : x = ']'
    · subst hx
      exact hcut body hb
    · have hread : closeSet? ('!' :: x :: (body ++ ']' :: rest)) =
          splitSet? ['!'] (x :: body ++ ']' :: rest) := by
        simp [Token.closeSet?, hx]
      exact hread.trans (hcut (x :: body) (by simp [hb, Ne.symm hx]))
  | false =>
    have hsign : x ≠ '!' := fun he => hbare rfl (by rw [he]; rfl)
    by_cases hx : x = ']'
    · subst hx
      exact hcut body hb
    · have hread : closeSet? (x :: (body ++ ']' :: rest)) =
          splitSet? [] (x :: body ++ ']' :: rest) := by
        simp [Token.closeSet?, hx, hsign]
      exact hread.trans (hcut (x :: body) (by simp [hb, Ne.symm hx]))

theorem closeSet?_eq_none :
    closeSet? s = none ↔ ∀ negated seq rest, ¬ Closed s negated seq rest := by
  constructor
  · intro h negated seq rest hs
    rw [hs.closeSet?] at h
    cases h
  · intro h
    rw [Option.eq_none_iff_forall_ne_some]
    rintro ⟨i, rest⟩ hs
    obtain ⟨negated, seq, -, hc⟩ := closed_of_closeSet? hs
    exact h negated seq rest hc

end Wildcard
end EnvKeeper
