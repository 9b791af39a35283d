import EnvKeeper.Proofs.Document.Yaml.Scalars

/-! How documents are laid out. Every part is ASCII, starts with a token and ends with a character
that is no white space, so that of the white space at the end only the last line end is dropped. -/

namespace EnvKeeper.Yaml

/-- ASCII without white space at its end. -/
structure Neat (w : List Char) : Prop where
  ascii : w.all isAscii = true
  ends : ∃ v c, w = v ++ [c] ∧ isBlank c = false

theorem Neat.append {v w : List Char} (hv : v.all isAscii = true) (hw : Neat w) : Neat (v ++ w) where
  ascii := by rw [List.all_append, hv, hw.ascii]; rfl
  ends := by
    obtain ⟨u, c, rfl, hc⟩ := hw.ends
    exact ⟨v ++ u, c, (List.append_assoc v u [c]).symm, hc⟩

theorem neat_singleton {c : Char} (h : isAscii c = true) (hc : isBlank c = false) : Neat [c] where
  ascii := by rw [List.all_cons, h]; rfl
  ends := ⟨[], c, rfl, hc⟩

theorem isBlank_of_printable {c : Char} (h : isPrintable c = true) (hc : c ≠ ' ') :
    isBlank c = false := by
  have hne : c.toNat ≠ 0x20 := by
    intro hn
    exact hc (Char.toNat_inj.1 hn)
  rw [isPrintable, decide_eq_true_eq] at h
  simp only [isBlank, Bool.or_eq_false_iff, decide_eq_false_iff_not, beq_eq_false_iff_ne]
  omega

theorem isAscii_of_isPrintable (c : Char) (h : isPrintable c = true) : isAscii c = true := by
  rw [isAscii, h, Bool.or_true]

section Scalars

variable {p : Place} {s : List Char}

theorem ends_flow_bare (h : Bare s) (hs : s ≠ []) (before : Char) (col : Nat) :
    ∃ v c, flow p (fun c => [c]) before col s = v ++ [c] ∧ isBlank c = false := by
  induction s generalizing before col with
  | nil => exact absurd rfl hs
  | cons c s ih =>
    by_cases hnil : s = []
    · subst hnil
      have hc : c ≠ ' ' := by
        rintro rfl
        exact h.last.1 rfl
      rw [flow_char (h.solid hc)]
      exact ⟨[], c, rfl, isBlank_of_printable (h.printable c List.mem_cons_self) hc⟩
    · have ih := ih h.tail hnil
      by_cases hc : c = ' '
      · subst hc
        rcases flow_space p (fun c => [c]) before col s with hflow | ⟨-, -, hflow⟩ <;> rw [hflow]
        · obtain ⟨v, d, hv, hd⟩ := ih ' ' (col + 1)
          exact ⟨' ' :: v, d, by rw [hv]; rfl, hd⟩
        · obtain ⟨v, d, hv, hd⟩ := ih ' ' p.indent
          exact ⟨newLines 0 p.indent ++ v, d, by rw [hv, List.append_assoc], hd⟩
      · obtain ⟨v, d, hv, hd⟩ := ih c (col + [c].length)
        exact ⟨c :: v, d, by rw [flow_char (h.solid hc), hv]; rfl, hd⟩

theorem neat_scalar (p : Place) (col : Nat) (s : List Char) : Neat (scalar p col s) where
  ascii := all_scalar isAscii_of_isPrintable (.inl (by decide)) col
  ends := by
    rw [scalar]
    cases h : style s with
    | bare =>
      obtain ⟨hbare, -, -, htyped⟩ := of_style_bare h
      apply ends_flow_bare hbare
      rintro rfl
      cases htyped
    | single => exact ⟨_, '\'', rfl, by decide⟩
    | double => exact ⟨_, '"', rfl, by decide⟩

theorem neat_repr (n : Nat) : Neat (Nat.repr n).toList where
  ascii := ascii_repr n
  ends := by
    rw [Nat.toList_repr]
    have hne : Nat.toDigits 10 n ≠ [] := Nat.toDigits_ne_nil
    have hdigit : ((Nat.toDigits 10 n).getLast hne).isDigit = true :=
      Nat.isDigit_of_mem_toDigits (n := n) (by decide) (by decide) (List.getLast_mem hne)
    refine ⟨_, _, (List.dropLast_concat_getLast hne).symm, ?_⟩
    generalize (Nat.toDigits 10 n).getLast hne = c at hdigit
    obtain ⟨hlow, hhigh⟩ := Char.isDigit_iff_toNat.1 hdigit
    simp only [isBlank, Bool.or_eq_false_iff, decide_eq_false_iff_not, beq_eq_false_iff_ne]
    simp at hlow hhigh
    omega

end Scalars

section Layout

/-- A field of a table at column `n`. -/
def field (n : Nat) (key : String) (d : Document) : List Char :=
  if isSimpleKey key.toList then simpleKey n key ++ behindKey n (n + (simpleKey n key).length) d
  else '?' :: ' ' :: text n (n + 2) key ++ newLines 0 n ++ ':' :: ' ' :: marked n d

theorem fields_cons (n : Nat) (key : String) (d : Document) (f : List (String × Document)) :
    fields n ((key, d) :: f) = field n key d :: fields n f := by
  rw [fields, field]
  simp [newLines]

theorem rows_singleton (n : Nat) (x : List Char) : rows n [x] = x :=
  List.intercalate_singleton

theorem rows_cons (n : Nat) (x : List Char) {l : List (List Char)} (h : l ≠ []) :
    rows n (x :: l) = x ++ (newLines 0 n ++ rows n l) := by
  rw [rows, List.intercalate_cons_of_ne_nil h, List.append_assoc]
  rfl

theorem neat_rows (n : Nat) {l : List (List Char)} (hne : l ≠ []) (hl : ∀ x ∈ l, Neat x) :
    Neat (rows n l) := by
  induction l with
  | nil => exact absurd rfl hne
  | cons x l ih =>
    obtain ⟨hx, hl⟩ := List.forall_mem_cons.1 hl
    by_cases h : l = []
    · subst h
      rwa [rows_singleton]
    · rw [rows_cons n x h]
      have hline : (newLines 0 n).all isAscii = true := all_newLines (by decide) (by decide) 0 n
      exact ((ih h hl).append hline).append hx.ascii

theorem neat_brackets : Neat ['[', ']'] ∧ Neat ['\x7b', '\x7d'] :=
  ⟨⟨by decide, ['['], ']', rfl, by decide⟩, ⟨by decide, ['\x7b'], '\x7d', rfl, by decide⟩⟩

theorem neat_simpleKey (n : Nat) (key : String) : Neat (simpleKey n key) :=
  (neat_singleton (by decide) (by decide)).append (neat_scalar _ _ _).ascii

mutual

theorem neat_marked (n : Nat) : (d : Document) → Neat (marked n d)
  | .text _ => neat_scalar _ _ _
  | .number k => neat_repr k
  | .list [] => neat_brackets.1
  | .list (d :: l) => neat_rows _ (List.cons_ne_nil _ _) (neat_items (n + 2) (d :: l))
  | .table [] => neat_brackets.2
  | .table ((k, d) :: f) => neat_rows _ (List.cons_ne_nil _ _) (neat_fields (n + 2) ((k, d) :: f))

theorem neat_items (n : Nat) : (l : List Document) → ∀ x ∈ items n l, Neat x
  | [] => List.forall_mem_nil _
  | d :: l => List.forall_mem_cons.2
      ⟨(neat_marked n d).append (v := ['-', ' ']) (by decide), neat_items n l⟩

theorem neat_behindKey (n col : Nat) : (d : Document) → Neat (behindKey n col d)
  | .text _ => (neat_scalar _ _ _).append (v := [' ']) (by decide)
  | .number k => (neat_repr k).append (v := [' ']) (by decide)
  | .list [] => neat_brackets.1.append (v := [' ']) (by decide)
  | .list (d :: l) => (neat_rows n (List.cons_ne_nil _ _) (neat_items n (d :: l))).append
      (all_newLines (by decide) (by decide) 0 n)
  | .table [] => neat_brackets.2.append (v := [' ']) (by decide)
  | .table ((k, d) :: f) =>
    (neat_rows (n + 2) (List.cons_ne_nil _ _) (neat_fields (n + 2) ((k, d) :: f))).append
      (all_newLines (by decide) (by decide) 0 (n + 2))

theorem neat_fields (n : Nat) : (f : List (String × Document)) → ∀ x ∈ fields n f, Neat x
  | [] => List.forall_mem_nil _
  | (k, d) :: f => by
    rw [fields_cons]
    refine List.forall_mem_cons.2 ⟨?_, neat_fields n f⟩
    have hmarked := neat_marked n d
    have hkey : (text n (n + 2) k).all isAscii = true := (neat_scalar _ _ _).ascii
    have hline : (newLines 0 n).all isAscii = true := all_newLines (by decide) (by decide) 0 n
    rw [field]
    split
    · exact (neat_behindKey n _ d).append (neat_simpleKey n k).ascii
    · refine (hmarked.append (v := [':', ' ']) (by decide)).append ?_
      simp only [List.all_append, List.all_cons, hkey, hline]
      decide

end

/-- The rows of a document that is a table. -/
def body (f : List (String × Document)) : List Char :=
  if f.isEmpty then ['\x7b', '\x7d'] else rows 0 (fields 0 f)

theorem neat_body (f : List (String × Document)) : Neat (body f) := by
  cases f with
  | nil => exact neat_brackets.2
  | cons x f => exact neat_rows 0 (List.cons_ne_nil _ _) (neat_fields 0 (x :: f))

theorem dropEnd_neat {w : List Char} (h : Neat w) : dropEnd isBlank (w ++ ['\n']) = w := by
  obtain ⟨v, c, rfl, hc⟩ := h.ends
  have hline : isBlank '\n' = true := by decide
  simp [dropEnd, hline, hc]

end Layout

end EnvKeeper.Yaml

namespace EnvKeeper

/-- The YAML of a table is all that was written of it but the last line end. -/
theorem Document.yaml_table (f : List (String × Document)) :
    Yaml.document (.table f) = Yaml.body f ++ ['\n'] ∧
      (Document.table f).yaml = String.ofList (Yaml.body f) := by
  have h : Yaml.document (.table f) = Yaml.body f ++ ['\n'] := rfl
  refine ⟨h, ?_⟩
  rw [yaml, h, Yaml.dropEnd_neat (Yaml.neat_body f)]

end EnvKeeper
