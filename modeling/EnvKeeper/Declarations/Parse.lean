import EnvKeeper.Declarations.Progress
import EnvKeeper.Table

/-! A whole `.env` text, read as dotenv 1.2.4 reads it, without interpolation: statement after statement,
each from where the last one ended. A statement that cannot be read is noted with its line, and the
rest of that line is skipped. A key that comes again keeps its place and takes the later value. -/

namespace EnvKeeper.Declarations

inductive Item where
  | bound (b : Binding)
  | malformed (line : Nat)
  deriving DecidableEq, Repr

/-- The next statement; none when only white space is left. -/
def Cursor.next? (c : Cursor) : Option (Item × Cursor) :=
  if (c.skipWhile isBlank).rest.isEmpty then none
  else match (c.skipWhile isBlank).statement with
    | .ok (b, d) => some (.bound b, d)
    | .error d => some (.malformed c.line, d.skipLine)

theorem Cursor.next?_lt {c d : Cursor} {i : Item} (h : c.next? = some (i, d)) :
    d.rest.length < c.rest.length := by
  have hc := (skipWhile_suffix isBlank c).length_le
  unfold next? at h
  split at h
  · cases h
  · next hne =>
    split at h
    · next hs => cases h; exact Nat.lt_of_lt_of_le (statement_lt hs) hc
    · next e he =>
      cases h
      have hs := (statement_error he).length_le
      cases hr : e.rest with
      | nil =>
        have := (skipLine_suffix e).length_le
        have : 0 < (c.skipWhile isBlank).rest.length :=
          List.length_pos_iff.2 fun hq => hne (by rw [hq]; rfl)
        rw [hr, List.length_nil] at *
        omega
      | cons x s =>
        have := skipLine_lt (c := e) (by simp [hr])
        omega

def Cursor.items (c : Cursor) : List Item :=
  match h : c.next? with
  | none => []
  | some (i, d) =>
    have := next?_lt h
    i :: d.items
termination_by c.rest.length

def items (text : List Char) : List Item :=
  Cursor.items ⟨if text.head? = some '\uFEFF' then text.tail else text, 1⟩

/-- A key without a value counts as empty. -/
def Item.entry? : Item → Option (String × String)
  | .bound ⟨some key, value⟩ => some (String.ofList key, String.ofList (value.getD []))
  | _ => none

def Item.line? : Item → Option Nat
  | .malformed line => some line
  | .bound _ => none

def entries (text : List Char) : Table String String :=
  ((items text).filterMap Item.entry?).foldl (fun t (k, v) => t.put k v) []

def malformed (text : List Char) : List Nat := (items text).filterMap Item.line?

end EnvKeeper.Declarations
