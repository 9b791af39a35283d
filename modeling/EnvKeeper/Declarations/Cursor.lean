import EnvKeeper.Text.Character
import EnvKeeper.Text.Split

/-! A place in a text: what is left of it, and the number of the line. Lines are counted piece by
piece, so a CR LF that two pieces share counts for two. -/

namespace EnvKeeper.Declarations

structure Cursor where
  rest : List Char
  line : Nat
  deriving DecidableEq, Repr

namespace Cursor

/-- Moves past `piece`, which leaves `rest`. -/
def past (c : Cursor) (piece rest : List Char) : Cursor := ⟨rest, c.line + lineEnds piece⟩

def skipWhile (p : Char → Bool) (c : Cursor) : Cursor :=
  c.past (c.rest.takeWhile p) (c.rest.dropWhile p)

/-- Moves past the rest of the line and one character of the line end. -/
def skipLine (c : Cursor) : Cursor :=
  let piece := c.rest.takeWhile (!isLineEnd ·)
  match c.rest.dropWhile (!isLineEnd ·) with
  | [] => c.past piece []
  | e :: s => c.past (piece ++ [e]) s

@[simp] theorem past_rest (c : Cursor) (piece s : List Char) : (c.past piece s).rest = s := rfl

@[simp] theorem skipWhile_rest (p : Char → Bool) (c : Cursor) :
    (c.skipWhile p).rest = c.rest.dropWhile p := rfl

theorem skipWhile_suffix (p : Char → Bool) (c : Cursor) : (c.skipWhile p).rest <:+ c.rest :=
  List.dropWhile_suffix p

theorem skipLine_rest (c : Cursor) :
    c.skipLine.rest = (c.rest.dropWhile (!isLineEnd ·)).tail := by
  unfold skipLine
  split <;> simp [*]

theorem skipLine_suffix (c : Cursor) : c.skipLine.rest <:+ c.rest := by
  rw [skipLine_rest]
  exact (List.tail_suffix _).trans (List.dropWhile_suffix _)

theorem skipLine_lt {c : Cursor} (h : c.rest ≠ []) : c.skipLine.rest.length < c.rest.length := by
  rw [skipLine_rest]
  have hle := (List.dropWhile_suffix (!isLineEnd ·) (l := c.rest)).length_le
  cases hd : c.rest.dropWhile (!isLineEnd ·) with
  | nil => exact List.length_pos_iff.2 h
  | cons e s => rw [hd] at hle; exact hle

end Cursor
end EnvKeeper.Declarations
