import EnvKeeper.Document.Yaml.Layout
import EnvKeeper.Proofs.Document.Json.RoundTrip
import EnvKeeper.Proofs.Document.Yaml.Pieces
import EnvKeeper.Proofs.Document.Yaml.Typed

/-! Whole scalars. Each style is read back as the text it was chosen for, bare numbers as numbers. A
simple key is written in one line and alike in every column. -/

namespace EnvKeeper.Yaml

section Styles

variable {s : List Char}

theorem of_style_bare (h : style s = .bare) :
    Bare s ∧ startsReserved s = false ∧ s.head? ≠ some ' ' ∧ isTyped s = false := by
  unfold style at h
  split at h
  · next hb =>
    simp only [isBare, Bool.and_eq_true, Bool.not_eq_true', bne_iff_ne, List.all_eq_true] at hb
    obtain ⟨⟨hp, ⟨⟨⟨⟨hr, hf⟩, hl⟩, hl'⟩, hc⟩, hh⟩, ht⟩ := hb
    refine ⟨⟨hp, ?_, ?_, hl, hl'⟩, hr, hf, ht⟩
    · intro hpair
      rw [hasPair_iff.2 hpair] at hc
      cases hc
    · intro hpair
      rw [hasPair_iff.2 hpair] at hh
      cases hh
  · split at h <;> cases h

theorem of_style_single (h : style s = .single) : Single s := by
  unfold style at h
  split at h
  · cases h
  split at h
  · next hs =>
    simp only [Bool.and_eq_true, Bool.not_eq_true', List.all_eq_true, Bool.or_eq_true,
      beq_iff_eq] at hs
    obtain ⟨⟨hp, hb⟩, ha⟩ := hs
    refine ⟨hp, ?_, ?_⟩
    · intro hpair
      rw [hasPair_iff.2 hpair] at hb
      cases hb
    · intro hpair
      rw [hasPair_iff.2 hpair] at ha
      cases ha
  · cases h

end Styles

/-- A token of a block comes first: neither white space nor the mark of an item or a key. -/
structure Opens (x : List Char) : Prop where
  starts : Starts x
  item : startsMark '-' x = false
  key : startsMark '?' x = false

theorem opens_of_ne {c : Char} (h : isWhite c = false ∧ c ≠ '-' ∧ c ≠ '?') (x : List Char) :
    Opens (c :: x) where
  starts := starts_cons h.1 x
  item := by rw [startsMark, beq_false_of_ne h.2.1, Bool.false_and]
  key := by rw [startsMark, beq_false_of_ne h.2.2, Bool.false_and]

theorem opens_of_startsBare {x : List Char} (h : startsBare x = true) : Opens x := by
  cases x with
  | nil => cases h
  | cons c x =>
    rw [startsBare] at h
    split at h
    · next hc =>
      simp only [Bool.and_eq_true, Bool.not_eq_true'] at h
      simp only [Bool.or_eq_true, beq_iff_eq] at hc
      refine ⟨starts_cons ?_ x, ?_, ?_⟩
      · rcases hc with (rfl | rfl) | rfl <;> decide
      · rw [startsMark, h.1, Bool.and_false]
      · rw [startsMark, h.1, Bool.and_false]
    · next hc =>
      simp only [Bool.and_eq_true, Bool.not_eq_true'] at h
      simp only [Bool.or_eq_true, beq_iff_eq, not_or] at hc
      exact opens_of_ne ⟨h.1.1, hc.1.1, hc.1.2⟩ x

section Bare

variable {p : Place} {m col : Nat} {before : Char} {s rest : List Char}

/-- What stands behind a scalar in its line, if anything, is the colon of a key. -/
def ClosesLine (rest : List Char) : Prop := ∀ c, rest.head? = some c → c = ':' ∨ c = '\n'

theorem head_flow (before : Char) (col : Nat) (hs : ∀ c ∈ s, isPrintable c = true)
    (hrest : ClosesLine rest) {c : Char} (hc : c ≠ ' ' ∧ c ≠ '\n' ∧ c ≠ ':')
    (h : (flow p (fun c => [c]) before col s ++ rest).head? = some c) : s.head? = some c := by
  cases s with
  | nil =>
    rcases hrest c h with rfl | rfl
    · exact absurd rfl hc.2.2
    · exact absurd rfl hc.2.1
  | cons d s =>
    by_cases hd : d = ' '
    · subst hd
      rcases flow_space p (fun c => [c]) before col s with hflow | ⟨-, -, hflow⟩ <;> rw [hflow] at h
      · exact absurd (Option.some.inj h).symm hc.1
      · exact absurd (Option.some.inj h).symm hc.2.1
    · rw [flow_char (isWhite_of_printable (hs d List.mem_cons_self) hd)] at h
      exact h

/-- Two equal characters stand first only if they do so in the text. -/
theorem take_two_flow (before : Char) (col : Nat) (hs : ∀ c ∈ s, isPrintable c = true)
    (hrest : ClosesLine rest) {c : Char} (hc : c ≠ ' ' ∧ c ≠ '\n' ∧ c ≠ ':')
    (h : (flow p (fun c => [c]) before col s ++ rest).take 2 = [c, c]) : s.take 2 = [c, c] := by
  have hfirst : s.head? = some c := by
    apply head_flow (p := p) before col hs hrest hc
    have := congrArg List.head? h
    rwa [List.head?_take, if_neg (by decide)] at this
  obtain ⟨t, rfl⟩ := List.head?_eq_some_iff.1 hfirst
  obtain ⟨hp, ht⟩ := List.forall_mem_cons.1 hs
  rw [flow_char (isWhite_of_printable hp hc.1), List.append_assoc, List.singleton_append,
    List.take_succ_cons, List.cons.injEq] at h
  have hsecond : t.head? = some c := by
    apply head_flow (p := p) c (col + 1) ht hrest hc
    have := congrArg List.head? h.2
    rwa [List.head?_take, if_neg (by decide)] at this
  obtain ⟨u, rfl⟩ := List.head?_eq_some_iff.1 hsecond
  rfl

theorem startsBare_flow (h : style s = .bare) (hrest : ClosesLine rest) :
    startsBare (flow p (fun c => [c]) before col s ++ rest) = true := by
  obtain ⟨hbare, hreserved, hspace, htyped⟩ := of_style_bare h
  cases s with
  | nil => cases htyped
  | cons c s =>
    have hsolid := hbare.solid (by simpa using hspace)
    have hs : ∀ d ∈ s, isPrintable d = true := hbare.tail.printable
    simp only [startsReserved, Bool.or_eq_false_iff] at hreserved
    obtain ⟨⟨⟨hindicator, hmark⟩, hhyphens⟩, hdots⟩ := hreserved
    rw [flow_char hsolid, List.append_assoc, List.singleton_append, startsBare]
    have htwo : ∀ d, d ≠ ' ' ∧ d ≠ '\n' ∧ d ≠ ':' → (c == d && s.take 2 == [d, d]) = false →
        (c == d && (flow p (fun c => [c]) c (col + 1) s ++ rest).take 2 == [d, d]) = false := by
      intro d hd
      simp only [Bool.and_eq_false_iff, beq_eq_false_iff_ne]
      exact Or.imp_right (mt (take_two_flow c (col + 1) hs hrest hd))
    split
    · next hc =>
      have hfirst : (c == '?' || c == ':' || c == '-') = true := by
        simp only [Bool.or_eq_true] at hc ⊢
        exact Or.comm.1 (or_assoc.1 hc)
      rw [hfirst, Bool.true_and, Bool.or_eq_false_iff] at hmark
      cases s with
      | nil => cases hmark.1
      | cons d t =>
        have hd : isWhite d = false := hbare.tail.solid (by simpa using hmark.2)
        have hhead : (flow p (fun c => [c]) c (col + 1) (d :: t) ++ rest).head?.all isWhite = false := by
          rw [flow_char hd]
          simpa using hd
        rw [List.length_singleton, hhead, htwo '-' (by decide) hhyphens]
        rfl
    · rw [List.length_singleton, hsolid, hindicator, htwo '.' (by decide) hdots]
      rfl

end Bare

section Read

variable {p : Place} {m col : Nat} {rest : List Char}

/-- A text that starts like a bare scalar is read as one. -/
theorem readScalar_bare {x : List Char} (h : startsBare x = true) :
    readScalar m x =
      (ofBare (readPieces (plainPiece m) (x.length + 1) x).1).map fun d =>
        (d, (readPieces (plainPiece m) (x.length + 1) x).2) := by
  unfold readScalar
  split
  · exact absurd h (by simp [startsBare])
  · exact absurd h (by simp [startsBare])
  · exact absurd h (by simp [startsBare])
  · exact absurd h (by simp [startsBare])
  · rw [if_pos h]

theorem readQuoted_pieces {piece : List Char → Option (List Char × List Char)} {quote : Char}
    {t w : List Char} (h : Pieces piece (quote :: rest) t w) :
    readQuoted piece quote w = some (.text (String.ofList t), rest) := by
  rw [readQuoted, h.read (Nat.lt_succ_self _)]
  simp

/-- A scalar is read as its text, and what stands behind it is left. -/
theorem readScalar_scalar (hm : m ≤ p.indent) (hp : p.indent < width) (s : String)
    (hrest : ClosesLine rest) (hstop : plainPiece m rest = none) :
    readScalar m (scalar p col s.toList ++ rest) = some (.text s, rest) := by
  rw [scalar]
  cases h : style s.toList with
  | bare =>
    obtain ⟨hbare, -, -, htyped⟩ := of_style_bare h
    have hpieces := pieces_bare ' ' col hbare hm hstop
    rw [readScalar_bare (startsBare_flow h hrest), hpieces.read (Nat.lt_succ_self _), ofBare,
      htyped]
    simp
  | single =>
    have hquote : rest.head? ≠ some '\'' := by
      intro hc
      rcases hrest _ hc with h | h <;> cases h
    have hpieces := pieces_single hm hquote ' ' (col + 1) (of_style_single h) nofun
    simp only [List.cons_append, List.append_assoc, List.nil_append]
    exact (readQuoted_pieces hpieces).trans (by rw [String.ofList_toList])
  | double =>
    have hpieces := pieces_double rest hm hp s.toList true false (col + 1)
    simp only [List.cons_append, List.append_assoc, List.nil_append]
    exact (readQuoted_pieces hpieces).trans (by rw [String.ofList_toList])

theorem opens_scalar (s : List Char) (hrest : ClosesLine rest) : Opens (scalar p col s ++ rest) := by
  rw [scalar]
  cases h : style s with
  | bare => exact opens_of_startsBare (startsBare_flow h hrest)
  | single => exact opens_of_ne (by decide) _
  | double => exact opens_of_ne (by decide) _

end Read

section Numbers

/-- Digits are no mark of a key and no white space, so a number is read up to its end. -/
theorem pieces_digits {m : Nat} {rest : List Char} (hrest : plainPiece m rest = none)
    {s : List Char} (hs : ∀ c ∈ s, c.isDigit = true) :
    Pieces (plainPiece m) rest s (s ++ rest) := by
  induction s with
  | nil => exact .nil hrest
  | cons c s ih =>
    obtain ⟨hc, hs⟩ := List.forall_mem_cons.1 hs
    refine .cons (a := [c]) (x := s ++ rest) ?_ (Nat.lt_succ_self _) (ih hs)
    have hwhite := isWhite_eq_false_iff.2 ⟨ne_of_isDigit hc rfl, ne_of_isDigit hc rfl⟩
    have hmark : startsMark ':' (c :: (s ++ rest)) = false := by
      rw [startsMark, beq_false_of_ne (ne_of_isDigit hc rfl), Bool.false_and]
    rw [List.cons_append, plainPiece, if_neg (by simp [hwhite]), if_neg (by simp [hmark])]

theorem isTyped_toDigits (n : Nat) : isTyped (Nat.toDigits 10 n) = true := by
  obtain ⟨c, s, hs, hdigit⟩ := exists_toDigits n
  obtain ⟨hfirst, hmore⟩ := List.forall_mem_cons.1 hdigit
  have hname : ∀ d, d.isDigit = true → isNameChar d = true := by
    intro d hd
    simp [isNameChar, Char.isAlphanum, hd]
  have hform : IsIntegerForm (c :: s) := by
    by_cases hc : c = '0'
    · subst hc
      obtain ⟨-, rfl⟩ := eq_zero_of_toDigits hs
      exact .zero
    · refine .decimal ((isDigit_iff c (hname c hfirst)).1 ⟨hfirst, hc⟩) fun d hd => ?_
      refine (isDigitOr_iff d (hname d (hmore d hd))).1 ?_
      rw [isDigitOr, hmore d hd, Bool.true_or]
  rw [hs, isTyped, isInteger_of_form hform]
  simp only [Bool.or_true, Bool.true_or]

theorem startsBare_digits {c : Char} (h : c.isDigit = true) (x : List Char) :
    startsBare (c :: x) = true := by
  have hlist : "#,[]\x7b\x7d&*!|>'\"%@\x60".toList.contains c = false := by
    rw [← Bool.not_eq_true, List.contains_iff_mem]
    intro hc
    have hnone : "#,[]\x7b\x7d&*!|>'\"%@\x60".toList.any Char.isDigit = false := by decide
    exact List.any_eq_false.1 hnone c hc h
  have hne : ∀ d : Char, d.isDigit = false → (c == d) = false := fun d hd =>
    beq_false_of_ne (ne_of_isDigit h hd)
  rw [startsBare, hne '-' rfl, hne '?' rfl, hne ':' rfl, hne '.' rfl, isWhite, hne ' ' rfl,
    hne '\n' rfl, hlist]
  rfl

/-- A number is read as it is written, and starts a token. -/
theorem readScalar_number (n m : Nat) {rest : List Char} (hstop : plainPiece m rest = none) :
    readScalar m ((Nat.repr n).toList ++ rest) = some (.number n, rest) ∧
      startsBare ((Nat.repr n).toList ++ rest) = true := by
  obtain ⟨c, s, hs, hdigit⟩ := exists_toDigits n
  have hbare : startsBare (Nat.toDigits 10 n ++ rest) = true := by
    rw [hs]
    exact startsBare_digits (hdigit c List.mem_cons_self) _
  rw [← hs] at hdigit
  have hof : ofBare (Nat.toDigits 10 n) = some (.number n) := by
    have hread := Json.readNumber_toDigits n [] nofun
    rw [List.append_nil] at hread
    rw [ofBare, if_pos (isTyped_toDigits n), hread]
  rw [Nat.toList_repr]
  refine ⟨?_, hbare⟩
  rw [readScalar_bare hbare, (pieces_digits hstop hdigit).read (Nat.lt_succ_self _), hof]
  rfl

end Numbers

section Written

/-- Without folding, a text without line breaks stays in its line. -/
def StaysInLine (p : Place) (s : List Char) : Prop := p.folds = false ∧ '\n' ∉ s

variable {P : Char → Bool} {p r : Place} {s : List Char}

theorem StaysInLine.tail {c : Char} (h : StaysInLine p (c :: s)) : StaysInLine p s :=
  ⟨h.1, fun hs => h.2 (List.mem_cons_of_mem c hs)⟩

theorem StaysInLine.solid {c : Char} (h : StaysInLine p (c :: s)) (hc : c ≠ ' ') :
    isWhite c = false := by
  refine isWhite_eq_false_iff.2 ⟨hc, ?_⟩
  rintro rfl
  exact h.2 List.mem_cons_self

theorem flow_same {q : Char → List Char} (h : StaysInLine p s) (h' : r.folds = false)
    (before before' : Char) (col col' : Nat) :
    flow p q before col s = flow r q before' col' s := by
  induction s generalizing before before' col col' with
  | nil => rfl
  | cons c s ih =>
    by_cases hc : c = ' '
    · subst hc
      rcases flow_space p q before col s with hp | ⟨hfolds, -⟩
      · rcases flow_space r q before' col' s with hr | ⟨hfolds, -⟩
        · rw [hp, hr, ih h.tail]
        · rw [h'] at hfolds
          cases hfolds
      · rw [h.1] at hfolds
        cases hfolds
    · have hsolid := h.solid hc
      rw [flow_char hsolid, flow_char hsolid, ih h.tail]

theorem flowEscaped_same (h : p.folds = false) (h' : r.folds = false)
    (first first' fresh fresh' : Bool) (col col' : Nat) :
    flowEscaped p first fresh col s = flowEscaped r first' fresh' col' s := by
  induction s generalizing first first' fresh fresh' col col' with
  | nil => rfl
  | cons c s ih =>
    simp only [flowEscaped, h, h', Bool.false_and, Bool.false_eq_true, if_false]
    cases escape? c with
    | some e =>
      simp only
      rw [ih]
    | none =>
      simp only
      rw [ih]

/-- What stays in its line is written alike everywhere. -/
theorem scalar_same (h : StaysInLine p s) (h' : r.folds = false) (col col' : Nat) :
    scalar p col s = scalar r col' s := by
  rw [scalar, scalar, flow_same h h' ' ' ' ' col col', flow_same h h' ' ' ' ' (col + 1) (col' + 1),
    flowEscaped_same h.1 h' true true false false (col + 1) (col' + 1)]

theorem line_of_folds (hbreak : P '\n' = true ∨ p.folds = false) (hfolds : p.folds = true) :
    P '\n' = true := by
  rcases hbreak with hline | hstays
  · exact hline
  · rw [hstays] at hfolds
    cases hfolds

theorem all_newLines (hspace : P ' ' = true) (hbreak : P '\n' = true) (j n : Nat) :
    (newLines j n).all P = true := by
  rw [newLines, spaces, List.all_append, List.all_replicate, List.all_replicate, hspace, hbreak]
  simp

theorem all_flow {q : Char → List Char} (hspace : P ' ' = true)
    (hbreak : P '\n' = true ∨ StaysInLine p s)
    (hq : ∀ c ∈ s, isWhite c = false → (q c).all P = true) (before : Char) (col : Nat) :
    (flow p q before col s).all P = true := by
  induction s generalizing before col with
  | nil => rfl
  | cons c s ih =>
    have ih := ih (hbreak.imp_right StaysInLine.tail) fun d hd => hq d (List.mem_cons_of_mem c hd)
    by_cases hc : c = ' '
    · subst hc
      rcases flow_space p q before col s with hflow | ⟨hfolds, -, hflow⟩ <;> rw [hflow]
      · rw [List.all_cons, hspace, ih]
        rfl
      · have hline := line_of_folds (hbreak.imp_right And.left) hfolds
        rw [List.all_append, all_newLines hspace hline, ih]
        rfl
    by_cases hc' : c = '\n'
    · subst hc'
      have hline : P '\n' = true := by
        rcases hbreak with hline | hstays
        · exact hline
        · exact absurd List.mem_cons_self hstays.2
      have hfirst : (if before = '\n' then ['\n'] else ['\n', '\n']).all P = true := by
        split <;> simp [hline]
      have hspaces : (spaces p.indent).all P = true := by
        rw [spaces, List.all_replicate, hspace]
        simp
      rw [flow, if_neg hc, if_pos rfl, List.all_append, hfirst, Bool.true_and]
      split
      · exact ih _ _
      · rw [List.all_append, hspaces, ih]
        rfl
    · have hsolid := isWhite_eq_false_iff.2 ⟨hc, hc'⟩
      rw [flow_char hsolid, List.all_append, hq c List.mem_cons_self hsolid, ih]
      rfl

theorem escape?_printable {c : Char} {e : List Char} (h : escape? c = some e) :
    e.all isPrintable = true := by
  have hupper : ∀ n < 16, isPrintable n.digitChar.toUpper = true := by decide
  have hletter : ∀ x ∈ namedEscapes, isPrintable x.2 = true := by decide
  have hmark : isPrintable '\\' = true ∧ isPrintable 'x' = true ∧ isPrintable 'u' = true ∧
      isPrintable 'U' = true := by decide
  unfold escape? at h
  split at h
  · next hl =>
    cases h
    rw [List.all_cons, List.all_cons, hmark.1, hletter _ (mem_namedEscapes hl)]
    rfl
  split at h
  · cases h
  split at h
  · cases h
    rw [hexUpper, List.all_cons, List.all_cons, all_hex hupper, hmark.1, hmark.2.1]
    rfl
  split at h
  · cases h
    rw [hexUpper, List.all_cons, List.all_cons, all_hex hupper, hmark.1, hmark.2.2.1]
    rfl
  · cases h
    rw [hexUpper, List.all_cons, List.all_cons, all_hex hupper, hmark.1, hmark.2.2.2]
    rfl

variable (hP : ∀ c, isPrintable c = true → P c = true)
include hP

theorem all_flowEscaped (hbreak : P '\n' = true ∨ p.folds = false) (first fresh : Bool)
    (col : Nat) : (flowEscaped p first fresh col s).all P = true := by
  have hlineBreak : p.folds = true → ∀ next, (lineBreak p next).all P = true := by
    intro hfolds next
    have hline := line_of_folds hbreak hfolds
    have hlines : ('\n' :: spaces p.indent).all P = true :=
      all_newLines (hP ' ' (by decide)) hline 0 p.indent
    have hback : P '\\' = true := hP '\\' (by decide)
    rw [lineBreak, List.all_append, List.all_cons, hback, hlines]
    split <;> simp [hback]
  induction s generalizing first fresh col with
  | nil => rfl
  | cons c s ih =>
    cases he : escape? c with
    | some e =>
      have hescape : e.all P = true := by
        have := escape?_printable he
        simp only [List.all_eq_true] at this ⊢
        exact fun d hd => hP d (this d hd)
      rcases flowEscaped_escape p first fresh col s he with h | ⟨hfolds, h⟩ <;> rw [h]
      · rw [List.all_append, hescape, ih]
        rfl
      · rw [List.all_append, List.all_append, hescape, hlineBreak hfolds, ih]
        rfl
    | none =>
      have hc := hP c (of_escape?_eq_none he).1
      rcases flowEscaped_plain p first fresh col s he with h | ⟨hfolds, h⟩ <;> rw [h]
      · rw [List.all_cons, hc, ih]
        rfl
      · rw [List.all_append, List.all_cons, hlineBreak hfolds, hc, ih]
        rfl

/-- A scalar is written in printable characters, and in line ends if it does not stay in its line. -/
theorem all_scalar (hbreak : P '\n' = true ∨ StaysInLine p s) (col : Nat) :
    (scalar p col s).all P = true := by
  have hspace := hP ' ' (by decide)
  rw [scalar]
  cases h : style s with
  | bare =>
    have hbare := (of_style_bare h).1
    apply all_flow hspace hbreak
    intro c hc _
    rw [List.all_cons, hP c (hbare.printable c hc)]
    rfl
  | single =>
    have hsingle := of_style_single h
    have hquote : P '\'' = true := hP '\'' (by decide)
    have hflow : (flow p quoteSingle ' ' (col + 1) s).all P = true := by
      apply all_flow hspace hbreak
      intro c hc hsolid
      have hc := hP c ((hsingle.printable c hc).resolve_right (isWhite_eq_false_iff.1 hsolid).2)
      rw [quoteSingle]
      split <;> simp [hc, hquote]
    simp [hquote, hflow]
  | double =>
    have hquote : P '"' = true := hP '"' (by decide)
    have hflow := all_flowEscaped (s := s) hP (hbreak.imp_right And.left) true false (col + 1)
    simp [hquote, hflow]

end Written

end EnvKeeper.Yaml
