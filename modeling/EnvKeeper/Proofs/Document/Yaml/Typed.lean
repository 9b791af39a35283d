import EnvKeeper.Document.Yaml.Typed
import EnvKeeper.Proofs.Text.Name
import Mathlib.Data.List.TakeWhile

/-! The names to which YAML 1.1 gives a type other than text. Without signs, points, hyphens and colons
these are the words of booleans and of the null, and the integers of four bases. -/

namespace EnvKeeper.Yaml

/-- The words of the booleans and of the null. -/
def typedWords : List (List Char) :=
  ["yes", "no", "true", "false", "on", "off", "null"].map String.toList

/-- A word as it is, with a capital in front, and in capitals. -/
def spellings (w : List Char) : List (List Char) :=
  [w, w.modifyHead Char.toUpper, w.map Char.toUpper]

/-- The integers without sign and colon: in base two, eight, ten and sixteen. -/
inductive IsIntegerForm : List Char → Prop where
  | binary {d : List Char} (hne : d ≠ []) (hd : d ⊆ "01_".toList) : IsIntegerForm ('0' :: 'b' :: d)
  | octal {d : List Char} (hne : d ≠ []) (hd : d ⊆ "01234567_".toList) : IsIntegerForm ('0' :: d)
  | zero : IsIntegerForm ['0']
  | decimal {c : Char} {d : List Char} (hc : c ∈ "123456789".toList)
    (hd : d ⊆ "0123456789_".toList) : IsIntegerForm (c :: d)
  | hexadecimal {d : List Char} (hne : d ≠ []) (hd : d ⊆ "0123456789abcdefABCDEF_".toList) :
    IsIntegerForm ('0' :: 'x' :: d)

/-- The names that are no texts where they stand bare. -/
def IsTypedName (n : List Char) : Prop := (∃ w ∈ typedWords, n ∈ spellings w) ∨ IsIntegerForm n

section Characters

variable {p : Char → Bool} {a d l : List Char}

theorem isDigitOr_iff : ∀ c, isNameChar c = true →
    (isDigitOr ['_'] c = true ↔ c ∈ "0123456789_".toList) :=
  forall_isNameChar (by decide)

theorem isHexOr_iff : ∀ c, isNameChar c = true →
    (isHexOr c = true ↔ c ∈ "0123456789abcdefABCDEF_".toList) :=
  forall_isNameChar (by decide)

theorem isBinaryOr_iff : ∀ c, isNameChar c = true →
    ((c == '0' || c == '1' || c == '_') = true ↔ c ∈ "01_".toList) :=
  forall_isNameChar (by decide)

theorem isOctalOr_iff : ∀ c, isNameChar c = true →
    ((decide ('0' ≤ c ∧ c ≤ '7') || c == '_') = true ↔ c ∈ "01234567_".toList) :=
  forall_isNameChar (by decide)

theorem isDigit_iff : ∀ c, isNameChar c = true →
    (c.isDigit = true ∧ c ≠ '0' ↔ c ∈ "123456789".toList) :=
  forall_isNameChar (by decide)

/-- What a test says of characters of a name, said by a list of them. -/
theorem all_iff_subset (h : ∀ c, isNameChar c = true → (p c = true ↔ c ∈ l))
    (hn : IsName (a ++ d)) : d.all p = true ↔ d ⊆ l := by
  rw [List.all_eq_true]
  exact forall₂_congr fun c hc => h c (hn.2 c (List.mem_append_right a hc))

theorem isName_append (ha : IsName a) (hl : l.all isNameChar = true) (hd : d ⊆ l) :
    IsName (a ++ d) :=
  ⟨List.append_ne_nil_of_left_ne_nil ha.1 d,
    List.forall_mem_append.2 ⟨ha.2, fun c hc => List.all_eq_true.1 hl c (hd hc)⟩⟩

end Characters

section Words

variable {s : List Char}

/-- Of the words of a type only those have to be looked at that are names. -/
theorem typed_of_isOneOf {words : List String}
    (h : ∀ w ∈ words.map String.toList, IsName w → ∃ v ∈ typedWords, w ∈ spellings v)
    (hs : isOneOf words s = true) (hn : IsName s) : ∃ v ∈ typedWords, s ∈ spellings v := by
  obtain ⟨w, hw, rfl⟩ : ∃ w ∈ words, w.toList = s := by
    simpa [isOneOf] using hs
  exact h _ (List.mem_map_of_mem hw) hn

theorem isWord_iff_spelled (hn : IsName s) :
    (isNull s || isBoolean s || isSpecial s) = true ↔ ∃ w ∈ typedWords, s ∈ spellings w := by
  have hspelled : ∀ w ∈ typedWords, ∀ v ∈ spellings w,
      (isNull v || isBoolean v || isSpecial v) = true := by decide
  refine ⟨fun h => ?_, fun ⟨w, hw, hs⟩ => hspelled w hw s hs⟩
  simp only [Bool.or_eq_true] at h
  rcases h with (h | h) | h
  · exact typed_of_isOneOf (by decide) h hn
  · exact typed_of_isOneOf (by decide) h hn
  · exact typed_of_isOneOf (by decide) h hn

end Words

section Integers

variable {s d : List Char}

theorem dropSign_name (hn : IsName s) : dropSign s = s := by
  unfold dropSign
  split
  · exact absurd List.mem_cons_self (hn.not_mem (by decide))
  · exact absurd List.mem_cons_self (hn.not_mem (by decide))
  · rfl

theorem isSexagesimal_name (hn : IsName s) : isSexagesimal s = false := by
  rw [isSexagesimal, splitOn_of_not_mem (hn.not_mem (by decide))]

theorem IsIntegerForm.isName (h : IsIntegerForm s) : IsName s := by
  cases h with
  | binary _ hd => exact isName_append (a := ['0', 'b']) (by decide) (by decide) hd
  | octal _ hd => exact isName_append (a := ['0']) (by decide) (by decide) hd
  | zero => decide
  | @decimal c d hc hd =>
    have hdigits : "123456789".toList.all isNameChar = true := by decide
    have hfirst : IsName [c] :=
      ⟨List.cons_ne_nil c [], List.forall_mem_singleton.2 (List.all_eq_true.1 hdigits c hc)⟩
    exact isName_append hfirst (by decide) hd
  | hexadecimal _ hd => exact isName_append (a := ['0', 'x']) (by decide) (by decide) hd

/-- Each base has its digits. Octal ones are neither `b` nor `x`, so no form is taken for another. -/
theorem isInteger_of_form (h : IsIntegerForm s) : isInteger s = true := by
  have hn := h.isName
  rw [isInteger, dropSign_name hn]
  cases h with
  | binary hne hd =>
    have hall := (all_iff_subset (a := ['0', 'b']) isBinaryOr_iff hn).2 hd
    simp [hne, hall]
  | octal hne hd =>
    split
    · next h => cases h; exact absurd (hd List.mem_cons_self) (by decide)
    · next h => cases h; exact absurd (hd List.mem_cons_self) (by decide)
    · next h => cases h; exact (all_iff_subset (a := ['0']) isOctalOr_iff hn).2 hd
    · next h => exact absurd rfl (h _)
  | zero => rfl
  | @decimal c d hc hd =>
    obtain ⟨hdigit, hzero⟩ := (isDigit_iff c (hn.2 c List.mem_cons_self)).2 hc
    have hall := (all_iff_subset (a := [c]) isDigitOr_iff hn).2 hd
    split
    · next h => exact absurd (List.cons.inj h).1 hzero
    · next h => exact absurd (List.cons.inj h).1 hzero
    · next h => exact absurd (List.cons.inj h).1 hzero
    · rw [isNumeral, hdigit, hall]
      rfl
  | hexadecimal hne hd =>
    have hall := (all_iff_subset (a := ['0', 'x']) isHexOr_iff hn).2 hd
    simp [hne, hall]

theorem form_of_isInteger (hn : IsName s) (h : isInteger s = true) : IsIntegerForm s := by
  rw [isInteger, dropSign_name hn] at h
  split at h
  · simp only [Bool.and_eq_true, Bool.not_eq_true', List.isEmpty_eq_false_iff] at h
    exact .binary h.1 ((all_iff_subset (a := ['0', 'b']) isBinaryOr_iff hn).1 h.2)
  · simp only [Bool.and_eq_true, Bool.not_eq_true', List.isEmpty_eq_false_iff] at h
    exact .hexadecimal h.1 ((all_iff_subset (a := ['0', 'x']) isHexOr_iff hn).1 h.2)
  · next d _ _ =>
    cases d with
    | nil => exact .zero
    | cons c d =>
      exact .octal (List.cons_ne_nil c d) ((all_iff_subset (a := ['0']) isOctalOr_iff hn).1 h)
  · next hzero =>
    rw [isSexagesimal_name hn, Bool.or_false] at h
    cases s with
    | nil => cases h
    | cons c d =>
      rw [isNumeral, Bool.and_eq_true] at h
      have hfirst : c ≠ '0' := by
        rintro rfl
        exact hzero d rfl
      exact .decimal ((isDigit_iff c (hn.2 c List.mem_cons_self)).1 ⟨h.1, hfirst⟩)
        ((all_iff_subset (a := [c]) isDigitOr_iff hn).1 h.2)

/-- The integer forms are the names that are integers. -/
theorem isIntegerForm_iff : IsIntegerForm s ↔ IsName s ∧ isInteger s = true :=
  ⟨fun h => ⟨h.isName, isInteger_of_form h⟩, fun h => form_of_isInteger h.1 h.2⟩

instance (s : List Char) : Decidable (IsIntegerForm s) := decidable_of_iff' _ isIntegerForm_iff

instance (n : List Char) : Decidable (IsTypedName n) := inferInstanceAs (Decidable (_ ∨ _))

end Integers

section Others

variable {s t : List Char}

theorem dropChar?_of_not_mem {c : Char} (h : c ∉ s) : dropChar? c s = none := by
  cases s with
  | nil => rfl
  | cons d s =>
    obtain ⟨hd, -⟩ := not_or.1 (mt List.mem_cons.2 h)
    rw [dropChar?, if_neg (Ne.symm hd)]

theorem dropDigits?_suffix {low high : Nat} (h : dropDigits? low high s = some t) : t <:+ s := by
  simp only [dropDigits?] at h
  split at h
  · cases h
    exact List.drop_suffix _ s
  · cases h

/-- Behind the year of a date there is a hyphen. -/
theorem no_year (h : '-' ∉ s) : (dropDigits? 4 4 s).bind (dropChar? '-') = none := by
  cases hyear : dropDigits? 4 4 s with
  | none => rfl
  | some t => exact dropChar?_of_not_mem fun hm => h ((dropDigits?_suffix hyear).subset hm)

theorem isDate_of_no_hyphen (h : '-' ∉ s) : isDate s = false := by
  simp only [isDate, Option.bind_eq_bind]
  rw [← Option.bind_assoc, no_year h]
  rfl

theorem isDateTime_of_no_hyphen (h : '-' ∉ s) : isDateTime s = false := by
  simp only [isDateTime, Option.bind_eq_bind]
  rw [← Option.bind_assoc, no_year h]
  rfl

theorem isFloat_name (hn : IsName s) : isFloat s = false := by
  have hpoint : s.dropWhile (· != '.') = [] := by
    rw [List.dropWhile_eq_nil_iff]
    intro c hc
    rw [bne_iff_ne]
    rintro rfl
    exact hn.not_mem (by decide) hc
  simp only [isFloat, dropSign_name hn, hpoint]

/-- Only its words and its integers make a name something else than a text. -/
theorem isTyped_name_iff (hn : IsName s) : isTyped s = true ↔ IsTypedName s := by
  have hyphen : '-' ∉ s := hn.not_mem (by decide)
  have hform : isInteger s = true ↔ IsIntegerForm s := by
    rw [isIntegerForm_iff, and_iff_right hn]
  rw [isTyped, isFloat_name hn, isDate_of_no_hyphen hyphen, isDateTime_of_no_hyphen hyphen,
    Bool.or_false, Bool.or_false, Bool.or_false, Bool.or_eq_true, isWord_iff_spelled hn, hform]
  rfl

example : ∀ n ∈ ["09", "0_8", "0b", "0x", "1e5", "y"], ¬ IsTypedName n.toList := by decide

example : ∀ n ∈ ["0_", "0b_", "0x_", "1_", "On"], IsTypedName n.toList := by decide

end Others

end EnvKeeper.Yaml
