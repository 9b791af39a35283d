/-! Wildcards for one name: `*`, `?` and sets such as `[a-z_]` and `[!x]`. A `[` that nothing
closes stands for itself, and so does a `]` that comes first in a set. -/

namespace EnvKeeper

/-- What a set holds: a character, or the characters from `lo` to `hi`, none if `hi` comes before
`lo`. -/
inductive Span where
  | one (c : Char)
  | range (lo hi : Char)
  deriving DecidableEq, Repr

namespace Span

def has (c : Char) : Span → Bool
  | .one d => c == d
  | .range lo hi => decide (lo ≤ c ∧ c ≤ hi)

def isEmpty : Span → Bool
  | .one _ => false
  | .range lo hi => decide (hi < lo)

def read : List Char → List Span
  | [] => []
  | [a] => [.one a]
  | [a, b] => [.one a, .one b]
  | a :: b :: c :: s => if b = '-' then .range a c :: read s else .one a :: read (b :: c :: s)

end Span

inductive Token where
  | star
  | any
  | char (c : Char)
  | set (negated : Bool) (spans : List Span)
  deriving DecidableEq, Repr

namespace Token

/-- Reads the inside of `[…]`. Empty ranges are dropped first, so a `!` that stood behind some of
them negates what follows it, be that the rest of a range. -/
def ofSet (s : List Char) : Token :=
  let live := fun s => (Span.read s).filter (!Span.isEmpty ·)
  match s with
  | '!' :: s => .set true (live s)
  | s =>
    match live s with
    | .one '!' :: l => .set true l
    | .range '!' hi :: l => .set true (.one '-' :: .one hi :: l)
    | l => .set false l

def splitSet? (front s : List Char) : Option (List Char × List Char) :=
  match s.dropWhile (· != ']') with
  | [] => none
  | _ :: rest => some (front ++ s.takeWhile (· != ']'), rest)

def closeSet? : List Char → Option (List Char × List Char)
  | '!' :: ']' :: s => splitSet? ['!', ']'] s
  | '!' :: s => splitSet? ['!'] s
  | ']' :: s => splitSet? [']'] s
  | s => splitSet? [] s

theorem splitSet?_lt {front s inside rest : List Char} (h : splitSet? front s = some (inside, rest)) :
    rest.length < s.length := by
  unfold splitSet? at h
  split at h
  · cases h
  · next hd =>
    cases h
    have := (List.dropWhile_suffix (· != ']') (l := s)).length_le
    rw [hd, List.length_cons] at this
    exact this

theorem closeSet?_lt {s inside rest : List Char} (h : closeSet? s = some (inside, rest)) :
    rest.length < s.length := by
  unfold closeSet? at h
  split at h <;> exact Nat.lt_of_lt_of_le (splitSet?_lt h) (by grind)

def read : List Char → List Token
  | [] => []
  | c :: s =>
    if c = '*' then .star :: read s
    else if c = '?' then .any :: read s
    else if c = '[' then
      match h : closeSet? s with
      | some (inside, rest) =>
        have := closeSet?_lt h
        ofSet inside :: read rest
      | none => .char c :: read s
    else .char c :: read s
termination_by s => s.length

end Token

def Token.has (c : Char) : Token → Bool
  | .star => false
  | .any => true
  | .char d => c == d
  | .set negated spans => (spans.any (·.has c)) != negated

namespace Token

/-- For every place in a list, whether `true` stands there or later. -/
def orLater (l : List Bool) : List Bool := l.foldr (fun b r => (b || r.headD false) :: r) []

/-- For every end of `s`, the longest first, whether the tokens match the whole of it. -/
def onEnds : List Token → List Char → List Bool
  | [], s => s.map (fun _ => false) ++ [true]
  | .star :: ts, s => orLater (onEnds ts s)
  | t :: ts, s => List.zipWith (fun c b => t.has c && b) s (onEnds ts s).tail ++ [false]

def accept (ts : List Token) (s : List Char) : Bool := (onEnds ts s).headD false

theorem onEnds_eq_cons (ts : List Token) (s : List Char) :
    ∃ l, onEnds ts s = accept ts s :: l := by
  suffices h : onEnds ts s ≠ [] by
    obtain ⟨b, l, hb⟩ := List.exists_cons_of_ne_nil h
    exact ⟨l, by simp [accept, hb]⟩
  induction ts with
  | nil => simp [onEnds]
  | cons t ts ih =>
    obtain ⟨b, l, hb⟩ := List.exists_cons_of_ne_nil ih
    cases t <;> simp [onEnds, orLater, hb]

theorem onEnds_cons (ts : List Token) (c : Char) (s : List Char) :
    onEnds ts (c :: s) = accept ts (c :: s) :: onEnds ts s := by
  suffices h : ∃ b, onEnds ts (c :: s) = b :: onEnds ts s by
    obtain ⟨b, hb⟩ := h
    simp [accept, hb]
  induction ts with
  | nil => exact ⟨false, rfl⟩
  | cons t ts ih =>
    obtain ⟨b, hb⟩ := ih
    obtain ⟨l, hl⟩ := onEnds_eq_cons ts s
    cases t <;> simp [onEnds, orLater, hb, hl]

theorem accept_nil (s : List Char) : accept [] s = s.isEmpty := by
  cases s <;> rfl

theorem accept_star (ts : List Token) (s : List Char) :
    accept (.star :: ts) s =
      (accept ts s || !s.isEmpty && accept (.star :: ts) s.tail) := by
  cases s with
  | nil =>
    have h : ∃ b, onEnds ts [] = [b] := by
      induction ts with
      | nil => exact ⟨true, rfl⟩
      | cons t ts ih =>
        obtain ⟨b, hb⟩ := ih
        cases t <;> simp [onEnds, orLater, hb]
    obtain ⟨b, hb⟩ := h
    simp [accept, onEnds, orLater, hb]
  | cons c s =>
    rw [accept, onEnds, onEnds_cons]
    rfl

theorem accept_cons {t : Token} (h : t ≠ .star) (ts : List Token) (c : Char) (s : List Char) :
    accept (t :: ts) (c :: s) = (t.has c && accept ts s) := by
  obtain ⟨l, hl⟩ := onEnds_eq_cons ts s
  rw [accept, onEnds.eq_def]
  cases t <;> simp_all [onEnds_cons]

theorem accept_cons_nil {t : Token} (h : t ≠ .star) (ts : List Token) :
    accept (t :: ts) [] = false := by
  cases t <;> simp_all [accept, onEnds]

end Token
end EnvKeeper
