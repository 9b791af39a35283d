/-! Text cut behind a given start, before a given end, at a separator and at its line ends, which are
LF, CR LF and CR. -/

namespace EnvKeeper

def afterStart? : (start text : List Char) → Option (List Char)
  | [], s => some s
  | _ :: _, [] => none
  | c :: p, d :: s => if c = d then afterStart? p s else none

/-- The pieces between separators. There is always a first one. -/
def splitOn (sep : Char) : List Char → List (List Char)
  | [] => [[]]
  | c :: s =>
    if c = sep then [] :: splitOn sep s
    else match splitOn sep s with
      | [] => [[c]]
      | p :: ps => (c :: p) :: ps

/-- Drops the longest end of `s` in which all characters have `p`. -/
def dropEnd (p : Char → Bool) (s : List Char) : List Char := (s.reverse.dropWhile p).reverse

def unifyLineEnds : List Char → List Char
  | [] => []
  | '\r' :: '\n' :: s => '\n' :: unifyLineEnds s
  | c :: s => (if c = '\r' then '\n' else c) :: unifyLineEnds s

/-- How many line ends a text holds, CR LF being one. -/
def lineEnds : List Char → Nat
  | [] => 0
  | '\r' :: '\n' :: s => lineEnds s + 1
  | c :: s => (if c = '\r' ∨ c = '\n' then 1 else 0) + lineEnds s

theorem afterStart?_eq_some {p s t : List Char} : afterStart? p s = some t ↔ s = p ++ t := by
  induction p generalizing s with
  | nil => simp [afterStart?]
  | cons c p ih => cases s <;> grind [afterStart?]

theorem not_mem_of_mem_splitOn {sep : Char} {s p : List Char} (h : p ∈ splitOn sep s) : sep ∉ p := by
  induction s generalizing p with
  | nil => simp_all [splitOn]
  | cons c s ih =>
    unfold splitOn at h
    split at h
    · rcases List.mem_cons.1 h with rfl | h
      · exact List.not_mem_nil
      · exact ih h
    · next hc =>
      split at h
      · next hs =>
        rw [List.mem_singleton.1 h, List.mem_singleton]
        exact Ne.symm hc
      · next p' ps hs =>
        rcases List.mem_cons.1 h with rfl | h
        · refine not_or.2 ⟨Ne.symm hc, ih ?_⟩ ∘ List.mem_cons.1
          rw [hs]
          exact List.mem_cons_self
        · refine ih ?_
          rw [hs]
          exact List.mem_cons_of_mem _ h

theorem splitOn_of_not_mem {sep : Char} {s : List Char} (h : sep ∉ s) : splitOn sep s = [s] := by
  induction s with
  | nil => rfl
  | cons c s ih =>
    obtain ⟨hc, hs⟩ := not_or.1 (mt List.mem_cons.2 h)
    rw [splitOn, if_neg (Ne.symm hc), ih hs]

theorem splitOn_ne_nil (sep : Char) (s : List Char) : splitOn sep s ≠ [] := by
  cases s with
  | nil => simp [splitOn]
  | cons c s =>
    rw [splitOn]
    split
    · simp
    · split <;> simp

theorem splitOn_append (sep : Char) (s t : List Char) :
    splitOn sep (s ++ sep :: t) = splitOn sep s ++ splitOn sep t := by
  induction s with
  | nil => simp [splitOn]
  | cons c s ih =>
    rw [List.cons_append, splitOn, splitOn, ih]
    split
    · rfl
    · obtain ⟨p, ps, hs⟩ := List.exists_cons_of_ne_nil (splitOn_ne_nil sep s)
      rw [hs]
      rfl

end EnvKeeper
