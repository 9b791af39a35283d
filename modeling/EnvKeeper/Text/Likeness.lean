/-! How like each other two words are. The longest block of characters that both hold is taken
first, of equally long ones the earliest; what stands before it in both is compared in the same way,
and so is what stands behind it. Words are alike when at least six tenths of their characters fall
into such blocks. -/

namespace EnvKeeper.Likeness

def commonStart : List Char → List Char → Nat
  | a :: s, b :: t => if a = b then commonStart s t + 1 else 0
  | _, _ => 0

/-- A block that two words hold, and how many characters stand before it in each. -/
structure Block where
  before : Nat × Nat := (0, 0)
  size : Nat := 0
  deriving DecidableEq, Repr

/-- The longest start of `s` that also stands in `t`. Before `s` there are `i` characters, before `t`
there are `n`. -/
def longestAlong (i n : Nat) (s : List Char) : List Char → Block
  | [] => {}
  | c :: t =>
    let later := longestAlong i (n + 1) s t
    let size := commonStart s (c :: t)
    if size ≠ 0 ∧ later.size ≤ size then ⟨(i, n), size⟩ else later

def longest (n : Nat) (t : List Char) : List Char → Block
  | [] => {}
  | c :: s =>
    let later := longest (n + 1) t s
    let here := longestAlong n 0 (c :: s) t
    if here.size ≠ 0 ∧ later.size ≤ here.size then here else later

def matched (s t : List Char) : Nat :=
  match longest 0 t s with
  | ⟨(i, j), n⟩ =>
    if n ≠ 0 ∧ i < s.length then
      matched (s.take i) (t.take j) + n + matched (s.drop (i + n)) (t.drop (j + n))
    else 0
termination_by s.length
decreasing_by
  · simp only [List.length_take]; omega
  · simp only [List.length_drop]; omega

/-- Words of very different lengths cannot be alike, and are not compared any further. -/
def areAlike (s t : List Char) : Bool :=
  decide (3 * (s.length + t.length) ≤ 10 * min s.length t.length) &&
    decide (3 * (s.length + t.length) ≤ 10 * matched s t)

def isNearer (word a b : String) : Bool :=
  let m := matched a.toList word.toList * (b.length + word.length)
  let n := matched b.toList word.toList * (a.length + word.length)
  decide (n < m ∨ n = m ∧ b ≤ a)

end EnvKeeper.Likeness

namespace EnvKeeper

def nearest (word : String) (known : List String) : List String :=
  ((known.filter fun k => Likeness.areAlike k.toList word.toList).mergeSort
    (Likeness.isNearer word)).take 3

end EnvKeeper
