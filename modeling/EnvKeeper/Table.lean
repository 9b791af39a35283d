/-! Tables that keep the order in which their keys came, and lists in strictly ascending order. A key
that is put again keeps its place. The lists are built by insertion: sorted and free of repeats. -/

namespace EnvKeeper

abbrev Table (κ α : Type) := List (κ × α)

namespace Table

variable {κ α : Type} [DecidableEq κ]

def get? : Table κ α → κ → Option α
  | [], _ => none
  | (k, a) :: t, x => if k = x then some a else get? t x

def put : Table κ α → κ → α → Table κ α
  | [], x, b => [(x, b)]
  | (k, a) :: t, x, b => if k = x then (k, b) :: t else (k, a) :: put t x b

def keys (t : Table κ α) : List κ := t.map Prod.fst

theorem get?_put (t : Table κ α) (x y : κ) (b : α) :
    (t.put x b).get? y = if x = y then some b else t.get? y := by
  induction t with
  | nil => simp [put, get?]
  | cons p t ih => grind [put, get?]

theorem keys_put (t : Table κ α) (x : κ) (b : α) :
    (t.put x b).keys = if x ∈ t.keys then t.keys else t.keys ++ [x] := by
  induction t with
  | nil => simp [put, keys]
  | cons p t ih =>
    obtain ⟨k, a⟩ := p
    by_cases h : k = x
    · simp [put, keys, h]
    · simp only [put, if_neg h, keys, List.map_cons] at ih ⊢
      rw [ih]
      by_cases hx : x ∈ List.map Prod.fst t <;> simp [hx, Ne.symm h]

theorem mem_keys {t : Table κ α} {x : κ} : x ∈ t.keys ↔ (t.get? x).isSome := by
  induction t with
  | nil => simp [keys, get?]
  | cons p t ih => grind [keys, get?]

end Table

section Ascending

variable {α : Type} [LT α] [DecidableLT α] [DecidableEq α]

def insertAscending (x : α) : List α → List α
  | [] => [x]
  | y :: l => if x < y then x :: y :: l else if x = y then y :: l else y :: insertAscending x l

def ascending (l : List α) : List α := l.foldr insertAscending []

theorem mem_insertAscending {x y : α} {l : List α} :
    y ∈ insertAscending x l ↔ y = x ∨ y ∈ l := by
  induction l with
  | nil => simp [insertAscending]
  | cons z l ih =>
    unfold insertAscending
    split
    · simp
    split
    · next h => simp [h]
    · simp only [List.mem_cons, ih]
      exact or_left_comm

theorem mem_ascending {x : α} {l : List α} : x ∈ ascending l ↔ x ∈ l := by
  induction l with
  | nil => simp [ascending]
  | cons y l ih =>
    rw [ascending, List.foldr_cons, mem_insertAscending]
    exact (or_congr_right ih).trans List.mem_cons.symm

end Ascending

end EnvKeeper
