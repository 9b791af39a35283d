import EnvKeeper.Command.Reply

/-! What documents are written with: pieces that are joined, and printable ASCII with line ends, in
which nothing is taken for a colour code. -/

namespace EnvKeeper

theorem all_intercalate {α : Type} {p : α → Bool} (sep : List α) (hsep : sep.all p = true)
    {l : List (List α)} (hl : ∀ x ∈ l, x.all p = true) : (sep.intercalate l).all p = true := by
  induction l with
  | nil => rfl
  | cons a l ih =>
    obtain ⟨ha, hl⟩ := List.forall_mem_cons.1 hl
    by_cases h : l = []
    · subst h
      rwa [List.intercalate_singleton]
    · rw [List.intercalate_cons_of_ne_nil h, List.all_append, List.all_append, ha, hsep, ih hl]
      rfl

/-- A line end or a printable character of ASCII. -/
def isAscii (c : Char) : Bool := c == '\n' || Yaml.isPrintable c

theorem isAscii_of_printable {c : Char} (h : 0x20 ≤ c.toNat ∧ c.toNat ≤ 0x7E) :
    isAscii c = true := by
  rw [isAscii, Yaml.isPrintable, decide_eq_true h, Bool.or_true]

theorem lt_of_isAscii {c : Char} (h : isAscii c = true) : c.toNat < 0x80 := by
  rw [isAscii, Yaml.isPrintable, Bool.or_eq_true, beq_iff_eq, decide_eq_true_eq] at h
  rcases h with rfl | h
  · decide
  · omega

theorem all_hex {p : Char → Bool} {f : Char → Char} (hf : ∀ n < 16, p (f n.digitChar) = true)
    (w n : Nat) : ((hex w n).map f).all p = true := by
  induction w generalizing n with
  | zero => rfl
  | succ w ih =>
    rw [hex, List.map_append, List.all_append, ih, List.map_singleton, List.all_cons,
      hf _ (Nat.mod_lt n (by decide))]
    rfl

theorem ascii_repr (n : Nat) : (Nat.repr n).toList.all isAscii = true := by
  rw [Nat.toList_repr, List.all_eq_true]
  intro c hc
  have hdigit : c.isDigit = true := Nat.isDigit_of_mem_toDigits (by decide) (by decide) hc
  obtain ⟨hlow, hhigh⟩ := Char.isDigit_iff_toNat.1 hdigit
  exact isAscii_of_printable ⟨by simp at hlow; omega, by simp at hhigh; omega⟩

/-- Without an escape character there is no colour code. -/
theorem Command.dropCodes_ascii {s : List Char} (h : s.all isAscii = true) :
    Command.dropCodes 0 s = s := by
  induction s with
  | nil => rfl
  | cons c s ih =>
    rw [List.all_cons, Bool.and_eq_true] at h
    obtain ⟨hc, hs⟩ := h
    have hne : c ≠ '\x1b' := by
      rintro rfl
      exact absurd hc (by decide)
    rw [dropCodes, if_neg hne]
    simp only [ih hs]

theorem Command.printed_ascii {s : List Char} (h : s.all isAscii = true) :
    Command.printed (String.ofList s) = String.ofList s ++ "\n" := by
  rw [printed, String.toList_ofList, dropCodes_ascii h]

namespace Json

theorem ascii_unit (n : Nat) : (unit n).all isAscii = true := by
  have h := all_hex (p := isAscii) (f := id) (by decide) 4 n
  rw [List.map_id] at h
  simp only [unit, List.all_cons, h]
  decide

theorem ascii_escape (c : Char) : (escape c).all isAscii = true := by
  unfold escape
  split
  · next h => rcases h with rfl | rfl <;> decide
  iterate 5
    split
    · decide
  split
  · next h => rw [List.all_cons, isAscii_of_printable h]; rfl
  split
  · exact ascii_unit _
  · rw [List.all_append, ascii_unit, ascii_unit]
    rfl

theorem ascii_string (s : String) : (string s).all isAscii = true := by
  have h : (s.toList.flatMap escape).all isAscii = true := by
    rw [List.all_flatMap, List.all_eq_true]
    exact fun c _ => ascii_escape c
  rw [string, List.cons_append, List.all_cons, List.all_append, h]
  decide

theorem ascii_indent (n : Nat) : (indent n).all isAscii = true := by
  rw [indent, List.all_replicate]
  split <;> decide

theorem ascii_bracket {opening closing : Char} (ho : isAscii opening = true)
    (hc : isAscii closing = true) (n : Nat) {items : List (List Char)}
    (h : ∀ x ∈ items, x.all isAscii = true) :
    (bracket opening closing n items).all isAscii = true := by
  have hitems : ∀ x ∈ items.map (indent (n + 2) ++ ·), x.all isAscii = true := by
    intro x hx
    obtain ⟨y, hy, rfl⟩ := List.mem_map.1 hx
    rw [List.all_append, ascii_indent, h y hy]
    rfl
  have hlines := all_intercalate [',', '\n'] (by decide) hitems
  have hline : isAscii '\n' = true := by decide
  rw [bracket]
  split
  · simp [ho, hc]
  · simp [ho, hc, hlines, hline, ascii_indent]

mutual

theorem ascii_value (n : Nat) : (d : Document) → (value n d).all isAscii = true
  | .text s => ascii_string s
  | .number k => ascii_repr k
  | .list l => ascii_bracket (by decide) (by decide) n (ascii_values (n + 2) l)
  | .table f => ascii_bracket (by decide) (by decide) n (ascii_fields (n + 2) f)

theorem ascii_values (n : Nat) : (l : List Document) → ∀ x ∈ values n l, x.all isAscii = true
  | [] => List.forall_mem_nil _
  | d :: l => List.forall_mem_cons.2 ⟨ascii_value n d, ascii_values n l⟩

theorem ascii_fields (n : Nat) :
    (f : List (String × Document)) → ∀ x ∈ fields n f, x.all isAscii = true
  | [] => List.forall_mem_nil _
  | (k, d) :: f => by
    refine List.forall_mem_cons.2 ⟨?_, ascii_fields n f⟩
    rw [List.all_append, List.all_cons, List.all_cons, ascii_string, ascii_value n d]
    decide

end

end Json

/-- What is printed of a document is its JSON, in ASCII, and a line end. -/
theorem Document.printed_json (d : Document) :
    Command.printed d.json = d.json ++ "\n" ∧ ∀ c ∈ (Command.printed d.json).toList, c.toNat < 0x80 := by
  have hascii := Json.ascii_value 0 d
  have hprinted := Command.printed_ascii hascii
  refine ⟨hprinted, fun c hc => lt_of_isAscii ?_⟩
  rw [json, hprinted, String.toList_append, String.toList_ofList, List.mem_append] at hc
  rcases hc with hc | hc
  · exact List.all_eq_true.1 hascii c hc
  · obtain rfl : c = '\n' := by simpa using hc
    decide

end EnvKeeper
