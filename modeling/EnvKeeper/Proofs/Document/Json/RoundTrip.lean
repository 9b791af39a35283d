import EnvKeeper.Proofs.Document.Json.Reader
import EnvKeeper.Proofs.Document.Written

/-! What is written as JSON is read back: first each character of a text, then texts and numbers, and
from these the documents, by their structure. What stands behind a value may be any text that does
not go on with a number. -/

namespace EnvKeeper

namespace Json

variable {rest : List Char}

theorem readUnits_unit (c : Char) (h : c.toNat < 0x10000) :
    readUnits (hex 4 c.toNat ++ rest) = some (c, rest) := by
  have hc : ¬ (0xD800 ≤ c.toNat ∧ c.toNat < 0xDC00) := by
    have hv : c.toNat.isValidChar := c.valid
    simp only [Nat.isValidChar] at hv
    omega
  simp only [readUnits, readHex?_hex (w := 4) h, Option.bind_eq_bind, Option.bind_some, if_neg hc,
    charOf?_toNat, Option.pure_def]

/-- The two halves of a character are joined. -/
theorem readUnits_pair {a b : Nat} (c : Char) (ha : 0xD800 ≤ a ∧ a < 0xDC00)
    (hb : 0xDC00 ≤ b ∧ b < 0xE000)
    (h : 0x10000 + (a - 0xD800) * 0x400 + (b - 0xDC00) = c.toNat) :
    readUnits (hex 4 a ++ '\\' :: 'u' :: (hex 4 b ++ rest)) = some (c, rest) := by
  have hread := readHex?_hex (w := 4) (n := a) (by omega) ('\\' :: 'u' :: (hex 4 b ++ rest))
  have hread' := readHex?_hex (w := 4) (n := b) (by omega) rest
  simp only [readUnits, hread, hread', Option.bind_eq_bind, Option.bind_some, if_pos ha, if_pos hb,
    h, charOf?_toNat, Option.pure_def]

/-- A character, escaped or not, is read back and does not look like the end of the text. -/
theorem readChar_escape (c : Char) (rest : List Char) :
    readChar (escape c ++ rest) = some (c, rest) ∧ (escape c ++ rest).head? ≠ some '"' := by
  unfold escape
  split
  · next h => rcases h with rfl | rfl <;> exact ⟨rfl, by simp⟩
  next hquote =>
  split
  · next h => subst h; exact ⟨rfl, by simp⟩
  split
  · next h => subst h; exact ⟨rfl, by simp⟩
  split
  · next h => subst h; exact ⟨rfl, by simp⟩
  split
  · next h => subst h; exact ⟨rfl, by simp⟩
  split
  · next h => subst h; exact ⟨rfl, by simp⟩
  obtain ⟨hq, hb⟩ := not_or.1 hquote
  split
  · next hplain =>
    have hcontrol : ¬ (c = '"' ∨ c.toNat < 0x20) := by
      simp only [hq, false_or]
      omega
    refine ⟨?_, by simpa using hq⟩
    rw [List.singleton_append, readChar, if_neg hb, if_neg hcontrol]
  split
  · next hlow => exact ⟨readUnits_unit c hlow, by simp [unit]⟩
  · next hhigh =>
    have hv : c.toNat.isValidChar := c.valid
    simp only [Nat.isValidChar] at hv
    refine ⟨?_, by simp [unit]⟩
    simp only [unit, List.cons_append, List.append_assoc]
    generalize hn : c.toNat - 0x10000 = n
    exact readUnits_pair c (by omega) (by omega) (by omega)

theorem readText_escape (t : List Char) {k : Nat} (hk : t.length < k) :
    readText k (t.flatMap escape ++ '"' :: rest) = some (t, rest) := by
  induction t generalizing k with
  | nil =>
    obtain ⟨k, rfl⟩ : ∃ j, k = j + 1 := ⟨k - 1, by omega⟩
    rfl
  | cons c t ih =>
    rw [List.length_cons] at hk
    obtain ⟨k, rfl⟩ : ∃ j, k = j + 1 := ⟨k - 1, by omega⟩
    obtain ⟨hchar, hhead⟩ := readChar_escape c (t.flatMap escape ++ '"' :: rest)
    rw [List.flatMap_cons, List.append_assoc, readText, if_neg hhead, hchar]
    simp only [Option.bind_eq_bind, Option.bind_some, ih (by omega : t.length < k)]
    rfl

theorem length_le_escape (t : List Char) : t.length ≤ (t.flatMap escape).length := by
  induction t with
  | nil => exact Nat.le_refl 0
  | cons c t ih =>
    have hne : escape c ≠ [] := by
      intro h
      have hread := (readChar_escape c []).1
      rw [h] at hread
      cases hread
    have := List.length_pos_iff.2 hne
    rw [List.flatMap_cons, List.length_append, List.length_cons]
    omega

/-- A text behind its opening quote. -/
theorem readText_string (s : String) {k : Nat} (hk : (string s).length ≤ k) :
    readText k (s.toList.flatMap escape ++ '"' :: rest) = some (s.toList, rest) := by
  have := length_le_escape s.toList
  simp only [string, List.length_cons, List.length_append, List.length_nil] at hk
  exact readText_escape s.toList (by omega)

theorem string_append (s : String) (rest : List Char) :
    string s ++ rest = '"' :: (s.toList.flatMap escape ++ '"' :: rest) := by
  simp [string]

section Gaps

theorem skipGap_indent (n : Nat) (s : List Char) : skipGap (indent n ++ s) = skipGap s := by
  rw [skipGap, List.dropWhile_append_of_pos]
  · rfl
  · intro c hc
    rw [List.eq_of_mem_replicate hc]
    decide

theorem skipGap_line (n : Nat) (s : List Char) :
    skipGap ('\n' :: (indent n ++ s)) = skipGap s := by
  rw [← skipGap_indent n s]
  rfl

theorem skipGap_of_not {c : Char} (h : isGap c = false) (s : List Char) :
    skipGap (c :: s) = c :: s := by
  rw [skipGap, List.dropWhile_cons, if_neg (by simp [h])]

theorem readValue_congr {s t : List Char} (h : skipGap s = skipGap t) (k : Nat) :
    readValue k s = readValue k t := by
  cases k with
  | zero => rfl
  | succ k => rw [readValue, readValue, h]

end Gaps

/-- No number goes on with it. -/
def EndsNumber (s : List Char) : Prop := ∀ c, s.head? = some c → c.isDigit = false

theorem endsNumber_cons {c : Char} (h : c.isDigit = false) (s : List Char) : EndsNumber (c :: s) := by
  rintro _ ⟨rfl⟩
  exact h

theorem readNumber_toDigits (n : Nat) (rest : List Char) (h : EndsNumber rest) :
    readNumber (Nat.toDigits 10 n ++ rest) = some (n, rest) := by
  have hdigit : ∀ c ∈ Nat.toDigits 10 n, c.isDigit = true := fun c hc =>
    Nat.isDigit_of_mem_toDigits (by decide) (by decide) hc
  have htake : (Nat.toDigits 10 n ++ rest).takeWhile Char.isDigit = Nat.toDigits 10 n := by
    rw [List.takeWhile_append_of_pos hdigit]
    cases rest with
    | nil => simp
    | cons c rest => simp [h c rfl]
  have hdrop : (Nat.toDigits 10 n ++ rest).dropWhile Char.isDigit = rest := by
    rw [List.dropWhile_append_of_pos hdigit]
    cases rest with
    | nil => simp
    | cons c rest => simp [h c rfl]
  have hzero : ¬ (Nat.toDigits 10 n = [] ∨
      ((Nat.toDigits 10 n).head? = some '0' ∧ Nat.toDigits 10 n ≠ ['0'])) := by
    rintro (hnil | ⟨hhead, hne⟩)
    · exact Nat.toDigits_ne_nil hnil
    · obtain ⟨s, hs⟩ := List.head?_eq_some_iff.1 hhead
      obtain ⟨-, rfl⟩ := eq_zero_of_toDigits hs
      exact hne hs
  rw [readNumber, htake, hdrop]
  simp only [if_neg hzero, Nat.ofDigitChars_ten_toDigits]

theorem isGap_of_isDigit {c : Char} (h : c.isDigit = true) : isGap c = false := by
  rw [isGap]
  simp only [Bool.or_eq_false_iff, beq_eq_false_iff_ne]
  exact ⟨⟨⟨ne_of_isDigit h rfl, ne_of_isDigit h rfl⟩, ne_of_isDigit h rfl⟩, ne_of_isDigit h rfl⟩

/-- A value starts with a character that is neither white space nor a closing bracket. -/
theorem value_starts (n : Nat) (d : Document) :
    ∃ c s, value n d = c :: s ∧ isGap c = false ∧ c ≠ ']' ∧ c ≠ '\x7d' := by
  cases d with
  | text s => exact ⟨_, _, rfl, by decide, by decide, by decide⟩
  | number k =>
    obtain ⟨c, s, hs, hdigit⟩ := exists_toDigits k
    have hc := hdigit c List.mem_cons_self
    exact ⟨c, s, by rw [value, Nat.toList_repr, hs], isGap_of_isDigit hc, ne_of_isDigit hc rfl,
      ne_of_isDigit hc rfl⟩
  | list l =>
    rw [value, bracket]
    split
    · exact ⟨_, _, rfl, by decide, by decide, by decide⟩
    · exact ⟨_, _, rfl, by decide, by decide, by decide⟩
  | table f =>
    rw [value, bracket]
    split
    · exact ⟨_, _, rfl, by decide, by decide, by decide⟩
    · exact ⟨_, _, rfl, by decide, by decide, by decide⟩

/-- Items that are not the only ones, each on a line of its own. -/
def listed (n : Nat) (items : List (List Char)) : List Char :=
  [',', '\n'].intercalate (items.map (indent n ++ ·))

theorem listed_cons (n : Nat) (x : List Char) {items : List (List Char)} (h : items ≠ []) :
    listed n (x :: items) = indent n ++ (x ++ ',' :: '\n' :: listed n items) := by
  rw [listed, List.map_cons, List.intercalate_cons_of_ne_nil (by simpa using h)]
  simp [listed]

theorem listed_singleton (n : Nat) (x : List Char) : listed n [x] = indent n ++ x := by
  simp [listed, List.intercalate]

theorem bracket_eq (opening closing : Char) (n : Nat) {items : List (List Char)} (h : items ≠ []) :
    bracket opening closing n items =
      opening :: '\n' :: (listed (n + 2) items ++ '\n' :: (indent n ++ [closing])) := by
  rw [bracket, if_neg (mt List.isEmpty_iff.1 h)]
  simp [listed]

theorem values_ne_nil {n : Nat} {l : List Document} (h : l ≠ []) : values n l ≠ [] := by
  obtain ⟨d, l, rfl⟩ := List.exists_cons_of_ne_nil h
  exact List.cons_ne_nil _ _

theorem fields_ne_nil {n : Nat} {f : List (String × Document)} (h : f ≠ []) : fields n f ≠ [] := by
  obtain ⟨⟨k, d⟩, f, rfl⟩ := List.exists_cons_of_ne_nil h
  exact List.cons_ne_nil _ _

theorem skipGap_listed (n : Nat) {x : List Char} {c : Char} {t : List Char} (hx : x = c :: t)
    (hc : isGap c = false) (items : List (List Char)) (s : List Char) :
    ∃ t', skipGap ('\n' :: (listed n (x :: items) ++ s)) = c :: t' := by
  by_cases h : items = []
  · subst h hx
    rw [listed_singleton, List.append_assoc, skipGap_line, List.cons_append, skipGap_of_not hc]
    exact ⟨_, rfl⟩
  · subst hx
    rw [listed_cons n _ h, List.append_assoc, skipGap_line, List.cons_append, List.cons_append,
      skipGap_of_not hc]
    exact ⟨_, rfl⟩

theorem readItems_congr {s t : List Char} (h : skipGap s = skipGap t) (k : Nat) :
    readItems k s = readItems k t := by
  cases k with
  | zero => rfl
  | succ k => rw [readItems, readItems, readValue_congr h]

theorem readFields_congr {s t : List Char} (h : skipGap s = skipGap t) (k : Nat) :
    readFields k s = readFields k t := by
  cases k with
  | zero => rfl
  | succ k => rw [readFields, readFields, h]

/-- Reads a field up to its end. What decides how it goes on is what stands behind the value. -/
theorem readFields_field {key : String} {d : Document} {n k : Nat} {s : List Char}
    (hk : (string key).length ≤ k) (hv : readValue k (value n d ++ s) = some (d, s)) :
    readFields (k + 1) (string key ++ ':' :: ' ' :: (value n d ++ s)) =
      match skipGap s with
      | ',' :: s => (readFields k s).map fun (f, s) => ((key, d) :: f, s)
      | '\x7d' :: s => some ([(key, d)], s)
      | _ => none := by
  have hspace : readValue k (' ' :: (value n d ++ s)) = some (d, s) := by
    rw [← hv]
    exact readValue_congr (skipGap_indent 1 (value n d ++ s)) k
  rw [string_append, readFields, skipGap_of_not (by decide)]
  simp only [readText_string key hk, Option.bind_eq_bind, Option.bind_some]
  rw [skipGap_of_not (by decide), String.ofList_toList]
  exact congrArg (Option.bind · _) hspace

/-- What is written is read back in `k` steps if it is shorter than that. -/
structure ReadsBack (k : Nat) : Prop where
  value : ∀ (d : Document) (n : Nat) (rest : List Char), (value n d).length < k → EndsNumber rest →
    readValue k (Json.value n d ++ rest) = some (d, rest)
  items : ∀ (d : Document) (l : List Document) (n m : Nat) (rest : List Char),
    (listed n (values n (d :: l))).length + 1 < k →
    readItems k ('\n' :: (listed n (values n (d :: l)) ++ '\n' :: (indent m ++ ']' :: rest))) =
      some (d :: l, rest)
  fields : ∀ (key : String) (d : Document) (f : List (String × Document)) (n m : Nat)
    (rest : List Char), (listed n (fields n ((key, d) :: f))).length + 1 < k →
    readFields k ('\n' :: (listed n (Json.fields n ((key, d) :: f)) ++
      '\n' :: (indent m ++ '\x7d' :: rest))) = some ((key, d) :: f, rest)

namespace ReadsBack

variable {k : Nat} (ih : ReadsBack k)
include ih

theorem succ_value (d : Document) (n : Nat) (rest : List Char) (hk : (Json.value n d).length < k + 1)
    (hr : EndsNumber rest) : readValue (k + 1) (Json.value n d ++ rest) = some (d, rest) := by
  cases d with
  | text s =>
    rw [Json.value] at hk ⊢
    rw [string_append, readValue, skipGap_of_not (by decide)]
    simp only [readText_string s (Nat.le_of_lt_succ hk), Option.map_some, String.ofList_toList]
  | number m =>
    have hread := readNumber_toDigits m rest hr
    obtain ⟨c, s, hs, hdigit⟩ := exists_toDigits m
    have hc := hdigit c List.mem_cons_self
    rw [Json.value, Nat.toList_repr]
    rw [hs, List.cons_append] at hread ⊢
    rw [readValue, skipGap_of_not (isGap_of_isDigit hc)]
    -- a digit is neither a quote nor an opening bracket
    split
    · next h => cases h; exact absurd hc (by decide)
    · next h => cases h; exact absurd hc (by decide)
    · next h => cases h; exact absurd hc (by decide)
    · rw [hread]
      rfl
  | list l =>
    cases l with
    | nil =>
      rw [readValue]
      rfl
    | cons d l =>
      obtain ⟨c, t, hd, hgap, hc, -⟩ := value_starts (n + 2) d
      rw [Json.value, bracket_eq _ _ _ (values_ne_nil (List.cons_ne_nil d l))] at hk ⊢
      simp only [List.length_cons, List.length_append] at hk
      have hitems := ih.items d l (n + 2) n rest (by omega)
      obtain ⟨t', hstart⟩ := skipGap_listed (n + 2) hd hgap (values (n + 2) l)
        ('\n' :: (indent n ++ ']' :: rest))
      simp only [List.cons_append, List.append_assoc, List.nil_append]
      rw [readValue, skipGap_of_not (by decide)]
      rw [values] at hitems ⊢
      simp only [hstart, hitems, List.head?_cons, Option.some.injEq, if_neg hc, Option.map_some]
  | table f =>
    cases f with
    | nil =>
      rw [readValue]
      rfl
    | cons p f =>
      obtain ⟨key, d⟩ := p
      rw [Json.value, bracket_eq _ _ _ (fields_ne_nil (List.cons_ne_nil (key, d) f))] at hk ⊢
      simp only [List.length_cons, List.length_append] at hk
      have hfields := ih.fields key d f (n + 2) n rest (by omega)
      obtain ⟨t', hstart⟩ := skipGap_listed (n + 2)
        (x := string key ++ ':' :: ' ' :: Json.value (n + 2) d) (string_append key _) (by decide)
        (Json.fields (n + 2) f) ('\n' :: (indent n ++ '\x7d' :: rest))
      have hc : '"' ≠ '\x7d' := by decide
      simp only [List.cons_append, List.append_assoc, List.nil_append]
      rw [readValue, skipGap_of_not (by decide)]
      rw [Json.fields] at hfields ⊢
      simp only [hstart, hfields, List.head?_cons, Option.some.injEq, if_neg hc, Option.map_some]

theorem succ_items (d : Document) (l : List Document) (n m : Nat) (rest : List Char)
    (hk : (listed n (values n (d :: l))).length + 1 < k + 1) :
    readItems (k + 1)
      ('\n' :: (listed n (values n (d :: l)) ++ '\n' :: (indent m ++ ']' :: rest))) =
        some (d :: l, rest) := by
  cases l with
  | nil =>
    simp only [values, listed_singleton, List.length_append] at hk ⊢
    rw [List.append_assoc, readItems_congr (skipGap_line n _), readItems,
      ih.value d n _ (by omega) (endsNumber_cons (by decide) _)]
    simp only [Option.bind_eq_bind, Option.bind_some]
    rw [skipGap_line, skipGap_of_not (by decide)]
    rfl
  | cons d' l =>
    rw [values, listed_cons n _ (values_ne_nil (List.cons_ne_nil d' l))] at hk ⊢
    simp only [List.length_append, List.length_cons] at hk
    have hitems := ih.items d' l n m rest (by omega)
    simp only [List.cons_append, List.append_assoc]
    rw [readItems_congr (skipGap_line n _), readItems,
      ih.value d n _ (by omega) (endsNumber_cons (by decide) _)]
    simp only [Option.bind_eq_bind, Option.bind_some]
    rw [skipGap_of_not (by decide)]
    simp only [hitems, Option.map_some]

theorem succ_fields (key : String) (d : Document) (f : List (String × Document)) (n m : Nat)
    (rest : List Char) (hk : (listed n (Json.fields n ((key, d) :: f))).length + 1 < k + 1) :
    readFields (k + 1) ('\n' :: (listed n (Json.fields n ((key, d) :: f)) ++
      '\n' :: (indent m ++ '\x7d' :: rest))) = some ((key, d) :: f, rest) := by
  cases f with
  | nil =>
    simp only [Json.fields, listed_singleton, List.length_append, List.length_cons] at hk ⊢
    simp only [List.cons_append, List.append_assoc]
    rw [readFields_congr (skipGap_line n _), readFields_field (by omega)
      (ih.value d n _ (by omega) (endsNumber_cons (by decide) _)), skipGap_line, skipGap_of_not (by decide)]
    rfl
  | cons p f =>
    obtain ⟨key', d'⟩ := p
    rw [Json.fields, listed_cons n _ (fields_ne_nil (List.cons_ne_nil (key', d') f))] at hk ⊢
    simp only [List.length_append, List.length_cons] at hk
    have hfields := ih.fields key' d' f n m rest (by omega)
    simp only [List.cons_append, List.append_assoc]
    rw [readFields_congr (skipGap_line n _), readFields_field (by omega)
      (ih.value d n _ (by omega) (endsNumber_cons (by decide) _)), skipGap_of_not (by decide)]
    simp only [hfields, Option.map_some]

end ReadsBack

theorem readsBack (k : Nat) : ReadsBack k := by
  induction k with
  | zero =>
    refine ⟨fun _ _ _ h => ?_, fun _ _ _ _ _ h => ?_, fun _ _ _ _ _ _ h => ?_⟩ <;>
      exact absurd h (Nat.not_lt_zero _)
  | succ k ih => exact ⟨ih.succ_value, ih.succ_items, ih.succ_fields⟩

/-- A document is read back, whatever white space stands behind it. -/
theorem read_value (d : Document) (gap : List Char) (hgap : skipGap gap = []) :
    read (value 0 d ++ gap) = some d := by
  have hends : EndsNumber gap := by
    intro c hc
    obtain ⟨s, rfl⟩ := List.head?_eq_some_iff.1 hc
    cases hdigit : c.isDigit with
    | false => rfl
    | true =>
      rw [skipGap_of_not (isGap_of_isDigit hdigit)] at hgap
      cases hgap
  have hlength : (value 0 d).length < (value 0 d ++ gap).length + 1 := by
    rw [List.length_append]
    omega
  rw [read, (readsBack _).value d 0 gap hlength hends]
  simp only [hgap, if_true]

end Json

end EnvKeeper
