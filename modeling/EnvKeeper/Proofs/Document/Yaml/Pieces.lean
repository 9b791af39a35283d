import EnvKeeper.Document.Yaml.Scalar
import EnvKeeper.Proofs.Document.Yaml.Reader

/-! The characters of a scalar, as they are written and read back. A line that ends where a space or
nothing was, and the empty lines that line breaks become, are read as what they stand for. -/

namespace EnvKeeper.Yaml

section White

theorem isWhite_eq_false_iff {c : Char} : isWhite c = false ↔ c ≠ ' ' ∧ c ≠ '\n' := by
  rw [isWhite, Bool.or_eq_false_iff, beq_eq_false_iff_ne, beq_eq_false_iff_ne]

theorem isWhite_of_printable {c : Char} (h : isPrintable c = true) (hc : c ≠ ' ') :
    isWhite c = false := by
  refine isWhite_eq_false_iff.2 ⟨hc, ?_⟩
  rintro rfl
  exact absurd h (by decide)

/-- White space does not come first. -/
def IsSolid (x : List Char) : Prop := ∀ c, x.head? = some c → isWhite c = false

/-- Something other than white space comes first. -/
def Starts (x : List Char) : Prop := ∃ c t, x = c :: t ∧ isWhite c = false

variable {x : List Char}

theorem starts_cons {c : Char} (h : isWhite c = false) (x : List Char) : Starts (c :: x) :=
  ⟨c, x, rfl, h⟩

theorem Starts.append (h : Starts x) (y : List Char) : Starts (x ++ y) := by
  obtain ⟨c, t, rfl, hc⟩ := h
  exact starts_cons hc (t ++ y)

theorem Starts.ne_nil (h : Starts x) : x ≠ [] := by
  obtain ⟨c, t, rfl, -⟩ := h
  exact List.cons_ne_nil c t

theorem Starts.isSolid (h : Starts x) : IsSolid x := by
  obtain ⟨c, t, rfl, hc⟩ := h
  intro d hd
  cases hd
  exact hc

theorem isSolid_cons {c : Char} (h : isWhite c = false) (x : List Char) : IsSolid (c :: x) :=
  (starts_cons h x).isSolid

theorem whites_of_solid (hx : IsSolid x) : whites x = [] := by
  cases x with
  | nil => rfl
  | cons c x => rw [whites, List.takeWhile_cons, hx c rfl]; rfl

theorem skipWhites_of_solid (hx : IsSolid x) : skipWhites x = x := by
  cases x with
  | nil => rfl
  | cons c x => rw [skipWhites, List.dropWhile_cons, hx c rfl]; rfl

theorem no_break_of_solid (hx : IsSolid x) : '\n' ∉ whites x := by
  rw [whites_of_solid hx]
  exact List.not_mem_nil

theorem whites_append {g : List Char} (hg : ∀ c ∈ g, isWhite c = true) (hx : IsSolid x) :
    whites (g ++ x) = g := by
  have := whites_of_solid hx
  rw [whites] at this ⊢
  rw [List.takeWhile_append_of_pos hg, this, List.append_nil]

theorem skipWhites_append {g : List Char} (hg : ∀ c ∈ g, isWhite c = true) (x : List Char) :
    skipWhites (g ++ x) = skipWhites x :=
  List.dropWhile_append_of_pos hg

theorem whites_space (x : List Char) : whites (' ' :: x) = ' ' :: whites x := rfl

theorem skipWhites_space (x : List Char) : skipWhites (' ' :: x) = skipWhites x := rfl

/-- A line end, `j` empty lines, and the indentation of the line behind them. -/
def newLines (j n : Nat) : List Char := List.replicate (j + 1) '\n' ++ spaces n

theorem white_spaces (n : Nat) : ∀ c ∈ spaces n, isWhite c = true := by
  intro c hc
  rw [List.eq_of_mem_replicate hc]
  rfl

theorem white_newLines (j n : Nat) : ∀ c ∈ newLines j n, isWhite c = true := by
  intro c hc
  rcases List.mem_append.1 hc with hc | hc
  · rw [List.eq_of_mem_replicate hc]
    rfl
  · exact white_spaces n c hc

theorem count_newLines (j n : Nat) : (newLines j n).count '\n' = j + 1 := by
  have h : (spaces n).count '\n' = 0 := by
    rw [List.count_eq_zero]
    intro h
    exact absurd (List.eq_of_mem_replicate h) (by decide)
  rw [newLines, List.count_append, h, List.count_replicate_self]

theorem length_lt_newLines (j n : Nat) (x : List Char) : x.length < (newLines j n ++ x).length := by
  rw [List.length_append, newLines, List.length_append, List.length_replicate]
  omega

theorem columnOf_newLines (j n : Nat) : columnOf (newLines j n) = n := by
  rw [columnOf, newLines, List.reverse_append, spaces, List.reverse_replicate,
    List.takeWhile_append_of_pos (by simp), List.reverse_replicate, List.replicate_succ]
  simp

theorem readWhites_newLines {m n : Nat} (hm : m ≤ n) (j : Nat) (hx : IsSolid x) :
    readWhites m (newLines j n ++ x) =
      some (if j = 0 then [' '] else List.replicate j '\n', x) := by
  rw [readWhites, whites_append (white_newLines j n) hx, count_newLines, columnOf_newLines,
    skipWhites_append (white_newLines j n), skipWhites_of_solid hx]
  simp [Nat.not_lt.2 hm]

theorem readWhites_space (m : Nat) (hx : '\n' ∉ whites x) :
    readWhites m (' ' :: x) = some ([' '], x) := by
  have h : (whites (' ' :: x)).count '\n' = 0 := by
    rw [List.count_eq_zero, whites_space]
    exact List.not_mem_cons_of_ne_of_not_mem (by decide) hx
  rw [readWhites, h]
  rfl

end White

section Pairs

theorem hasPair_iff {a b : Char} {s : List Char} : hasPair a b s = true ↔ [a, b] <:+: s := by
  fun_induction hasPair a b s with
  | case1 c d s ih =>
    rw [List.infix_cons_iff, Bool.or_eq_true, ih, Bool.and_eq_true, beq_iff_eq, beq_iff_eq,
      List.cons_prefix_cons, List.cons_prefix_cons, eq_comm, @eq_comm _ d]
    simp only [List.nil_prefix, and_true]
  | case2 s hs =>
    constructor
    · intro h
      cases h
    · intro h
      have hlen := h.length_le
      match s, hs, hlen with
      | c :: d :: s, hs, _ => exact (hs c d s rfl).elim

theorem no_pair_tail {a b c : Char} {s : List Char} (h : ¬ [a, b] <:+: c :: s) :
    ¬ [a, b] <:+: s := fun h' => h (List.infix_cons h')

theorem ne_of_no_pair {a b c : Char} {s : List Char} (h : ¬ [a, b] <:+: a :: c :: s) : c ≠ b := by
  rintro rfl
  exact h ⟨[], s, rfl⟩

end Pairs

/-- Pieces of what is written, up to `rest`, with what they stand for. -/
inductive Pieces (piece : List Char → Option (List Char × List Char)) (rest : List Char) :
    List Char → List Char → Prop
  | nil (h : piece rest = none) : Pieces piece rest [] rest
  | cons {a t w x : List Char} (h : piece w = some (a, x)) (hlen : x.length < w.length)
      (more : Pieces piece rest t x) : Pieces piece rest (a ++ t) w

theorem Pieces.read {piece : List Char → Option (List Char × List Char)} {rest t w : List Char}
    (h : Pieces piece rest t w) {k : Nat} (hk : w.length < k) :
    readPieces piece k w = (t, rest) := by
  induction h generalizing k with
  | nil h =>
    obtain ⟨k, rfl⟩ : ∃ j, k = j + 1 := ⟨k - 1, by omega⟩
    rw [readPieces, h]
  | cons h hlen more ih =>
    obtain ⟨k, rfl⟩ : ∃ j, k = j + 1 := ⟨k - 1, by omega⟩
    rw [readPieces, h]
    simp only [ih (by omega : _ < k)]

section Flow

variable {p : Place} {q : Char → List Char} {before : Char} {col : Nat} {s : List Char}

theorem flow_char {c : Char} (h : isWhite c = false) :
    flow p q before col (c :: s) = q c ++ flow p q c (col + (q c).length) s := by
  obtain ⟨hspace, hbreak⟩ := isWhite_eq_false_iff.1 h
  rw [flow, if_neg hspace, if_neg hbreak]

theorem flow_space (p : Place) (q : Char → List Char) (before : Char) (col : Nat) (s : List Char) :
    flow p q before col (' ' :: s) = ' ' :: flow p q ' ' (col + 1) s ∨
      p.folds = true ∧ (∃ c t, s = c :: t ∧ c ≠ ' ') ∧
        flow p q before col (' ' :: s) = newLines 0 p.indent ++ flow p q ' ' p.indent s := by
  rw [flow, if_pos rfl]
  split
  · next h =>
    right
    simp only [Bool.and_eq_true] at h
    obtain ⟨⟨⟨hfolds, -⟩, hnext⟩, -⟩ := h
    refine ⟨hfolds, ?_, rfl⟩
    cases s with
    | nil => cases hnext
    | cons c t => exact ⟨c, t, rfl, by simpa using hnext⟩
  · exact .inl rfl

theorem flow_second_space :
    flow p q ' ' col (' ' :: s) = ' ' :: flow p q ' ' (col + 1) s := by
  rw [flow, if_pos rfl, if_neg (by simp)]

/-- Behind a line break, further ones are written as they are. -/
theorem flow_further_breaks (hs : s.head? ≠ some '\n') (j : Nat) :
    flow p q '\n' col (List.replicate (j + 1) '\n' ++ s) =
      newLines j p.indent ++ flow p q '\n' p.indent s := by
  induction j generalizing col with
  | zero =>
    rw [List.replicate_one, List.singleton_append, flow, if_neg (by decide), if_pos rfl, if_pos rfl,
      if_neg hs]
    rfl
  | succ j ih =>
    rw [List.replicate_succ, List.cons_append, flow, if_neg (by decide), if_pos rfl, if_pos rfl,
      if_pos (by simp [List.replicate_succ]), ih]
    rfl

theorem flow_breaks (col : Nat) (hb : before ≠ '\n') (hs : s.head? ≠ some '\n') (j : Nat) :
    flow p q before col (List.replicate (j + 1) '\n' ++ s) =
      newLines (j + 1) p.indent ++ flow p q '\n' p.indent s := by
  rw [List.replicate_succ, List.cons_append, flow, if_neg (by decide), if_pos rfl, if_neg hb]
  cases j with
  | zero =>
    rw [List.replicate_zero, List.nil_append, if_neg hs]
    rfl
  | succ j =>
    rw [if_pos (by simp [List.replicate_succ]), flow_further_breaks hs]
    rfl

/-- Behind a space that stands for itself the line goes on. -/
theorem no_break_flow (col : Nat)
    (hq : ∀ c, isWhite c = false → Starts (q c)) (hs : ¬ [' ', '\n'] <:+: ' ' :: s) {x : List Char}
    (hx : (' ' :: s).getLast? = some ' ' → IsSolid x) :
    '\n' ∉ whites (flow p q ' ' col s ++ x) := by
  induction s generalizing col with
  | nil =>
    rw [flow, List.nil_append]
    exact no_break_of_solid (hx rfl)
  | cons c s ih =>
    by_cases hc : c = ' '
    · subst hc
      rw [flow_second_space, List.cons_append, whites_space]
      refine List.not_mem_cons_of_ne_of_not_mem (by decide) (ih (col + 1) (no_pair_tail hs) ?_)
      rwa [List.getLast?_cons_cons] at hx
    · have hsolid := isWhite_eq_false_iff.2 ⟨hc, ne_of_no_pair hs⟩
      rw [flow_char hsolid]
      exact no_break_of_solid (((hq c hsolid).append _).append _).isSolid

theorem isSolid_flow (hq : ∀ c, isWhite c = false → Starts (q c)) (hs : IsSolid s) {x : List Char}
    (hx : s = [] → IsSolid x) : IsSolid (flow p q before col s ++ x) := by
  cases s with
  | nil => exact hx rfl
  | cons c s =>
    have hc := hs c rfl
    rw [flow_char hc]
    exact (((hq c hc).append _).append _).isSolid

end Flow

section Bare

/-- What a text is that can be written bare, its first characters apart. -/
structure Bare (s : List Char) : Prop where
  printable : ∀ c ∈ s, isPrintable c = true
  colon : ¬ [':', ' '] <:+: s
  hash : ¬ [' ', '#'] <:+: s
  last : s.getLast? ≠ some ' ' ∧ s.getLast? ≠ some ':'

variable {c : Char} {s : List Char}

theorem Bare.tail (h : Bare (c :: s)) : Bare s where
  printable d hd := h.printable d (List.mem_cons_of_mem c hd)
  colon := no_pair_tail h.colon
  hash := no_pair_tail h.hash
  last := by
    cases s with
    | nil => simp
    | cons d s =>
      have := h.last
      rwa [List.getLast?_cons_cons] at this

theorem Bare.solid (h : Bare (c :: s)) (hc : c ≠ ' ') : isWhite c = false :=
  isWhite_of_printable (h.printable c List.mem_cons_self) hc

variable {p : Place} {m col : Nat} {before : Char} {rest : List Char}

/-- No colon in a bare text is the end of a key. -/
theorem Bare.not_mark (h : Bare (c :: s)) :
    startsMark ':' (c :: (flow p (fun c => [c]) before col s ++ rest)) = false := by
  rw [startsMark, Bool.and_eq_false_iff, beq_eq_false_iff_ne]
  by_cases hc : c = ':'
  · subst hc
    right
    cases s with
    | nil => exact absurd rfl h.last.2
    | cons d s =>
      have hd := h.tail.solid (ne_of_no_pair h.colon)
      rw [flow_char hd]
      simp [hd]
  · exact .inl hc

/-- Behind a space a bare text goes on, neither with a comment nor with the colon of a key. -/
theorem Bare.goes_on (h : Bare (' ' :: s)) (col : Nat) (rest : List Char) :
    (skipWhites (flow p (fun c => [c]) ' ' col s ++ rest)).head?.all (· == '#') = false ∧
      startsMark ':' (skipWhites (flow p (fun c => [c]) ' ' col s ++ rest)) = false := by
  induction s generalizing col with
  | nil => exact absurd rfl h.last.1
  | cons c s ih =>
    by_cases hc : c = ' '
    · subst hc
      rw [flow_second_space, List.cons_append, skipWhites_space]
      exact ih h.tail (col + 1)
    · have hsolid := h.tail.solid hc
      rw [flow_char hsolid, List.append_assoc, List.singleton_append,
        skipWhites_of_solid (isSolid_cons hsolid _)]
      refine ⟨?_, h.tail.not_mark⟩
      simpa using ne_of_no_pair h.hash

theorem plainPiece_white {c : Char} (hc : isWhite c = true)
    (h : (skipWhites s).head?.all (· == '#') = false ∧ startsMark ':' (skipWhites s) = false) :
    plainPiece m (c :: s) = readWhites m (c :: s) := by
  rw [plainPiece, if_pos hc, if_neg (by simp only [h.1, h.2]; decide)]

theorem starts_bare (c : Char) (hc : isWhite c = false) : Starts [c] := starts_cons hc []

/-- The characters of a bare text are read one by one. Where a line ends, a space was. -/
theorem pieces_bare (before : Char) (col : Nat) (h : Bare s) (hm : m ≤ p.indent)
    (hrest : plainPiece m rest = none) :
    Pieces (plainPiece m) rest s (flow p (fun c => [c]) before col s ++ rest) := by
  induction s generalizing before col with
  | nil => exact .nil hrest
  | cons c s ih =>
    by_cases hc : c = ' '
    · subst hc
      have hon := h.goes_on (p := p)
      rcases flow_space p (fun c => [c]) before col s with hflow | ⟨-, ⟨d, t, hs, hd⟩, hflow⟩
      · have hbreak : '\n' ∉ whites (flow p (fun c => [c]) ' ' (col + 1) s ++ rest) := by
          apply no_break_flow (col + 1) starts_bare
          · intro hpair
            exact absurd (h.printable '\n' (hpair.subset (by simp))) (by decide)
          · intro hlast
            exact absurd hlast h.last.1
        refine .cons (a := [' ']) (x := flow p (fun c => [c]) ' ' (col + 1) s ++ rest) ?_ ?_
          (ih _ _ h.tail)
        · rw [hflow, List.cons_append, plainPiece_white rfl (hon _ _), readWhites_space m hbreak]
        · rw [hflow, List.cons_append, List.length_cons]
          omega
      · subst hs
        have hsolid : IsSolid (flow p (fun c => [c]) ' ' p.indent (d :: t) ++ rest) := by
          apply isSolid_flow starts_bare
          · exact isSolid_cons (h.tail.solid hd) t
          · intro hnil
            cases hnil
        refine .cons (a := [' ']) (x := flow p (fun c => [c]) ' ' p.indent (d :: t) ++ rest) ?_ ?_
          (ih _ _ h.tail)
        · have hread := readWhites_newLines hm 0 hsolid
          rw [hflow, List.append_assoc]
          refine (plainPiece_white (s := spaces p.indent ++ _) rfl ?_).trans hread
          rw [skipWhites_append (white_spaces _)]
          exact hon _ _
        · rw [hflow, List.append_assoc]
          exact length_lt_newLines 0 p.indent _
    · have hsolid := h.solid hc
      rw [flow_char hsolid, List.append_assoc, List.singleton_append]
      refine .cons (a := [c]) (x := flow p (fun c => [c]) c (col + 1) s ++ rest) ?_ ?_ (ih _ _ h.tail)
      · rw [plainPiece, if_neg (by simp [hsolid]), if_neg (by rw [h.not_mark]; decide)]
        rfl
      · exact Nat.lt_succ_self _

end Bare

section Single

/-- What a text is that can be written in single quotes. -/
structure Single (s : List Char) : Prop where
  printable : ∀ c ∈ s, isPrintable c = true ∨ c = '\n'
  before : ¬ [' ', '\n'] <:+: s
  behind : ¬ ['\n', ' '] <:+: s

theorem Single.of_suffix {s t : List Char} (h : Single s) (ht : t <:+ s) : Single t where
  printable c hc := h.printable c (ht.subset hc)
  before hpair := h.before (hpair.trans ht.isInfix)
  behind hpair := h.behind (hpair.trans ht.isInfix)

theorem starts_quoteSingle (c : Char) (hc : isWhite c = false) : Starts (quoteSingle c) := by
  rw [quoteSingle]
  split
  · exact starts_cons (by decide) _
  · exact starts_cons hc _

theorem exists_breaks (s : List Char) :
    ∃ j t, s = List.replicate j '\n' ++ t ∧ t.head? ≠ some '\n' := by
  induction s with
  | nil => exact ⟨0, [], rfl, by simp⟩
  | cons c s ih =>
    by_cases hc : c = '\n'
    · obtain ⟨j, t, hs, ht⟩ := ih
      exact ⟨j + 1, t, by rw [hc, hs]; rfl, ht⟩
    · exact ⟨0, c :: s, rfl, by simpa using hc⟩

variable {p : Place} {m : Nat} {rest : List Char}

theorem singlePiece_quoteSingle {c : Char} (hc : isWhite c = false) (x : List Char) :
    singlePiece m (quoteSingle c ++ x) = some ([c], x) := by
  rw [quoteSingle]
  split
  · next h =>
    subst h
    rfl
  · next h => rw [List.singleton_append, singlePiece, if_neg (by simp [hc]), if_neg h]

theorem singlePiece_newLines (hm : m ≤ p.indent) (j : Nat) {x : List Char} (hx : IsSolid x) :
    singlePiece m (newLines j p.indent ++ x) =
      some (if j = 0 then [' '] else List.replicate j '\n', x) :=
  readWhites_newLines hm j hx

theorem pieces_single (hm : m ≤ p.indent) (hrest : rest.head? ≠ some '\'') (before : Char)
    (col : Nat) {s : List Char} (h : Single s) (hb : before = '\n' → s.head? ≠ some '\n') :
    Pieces (singlePiece m) ('\'' :: rest) s (flow p quoteSingle before col s ++ '\'' :: rest) := by
  have hquote : IsSolid ('\'' :: rest) := isSolid_cons (by decide) rest
  -- a run of line breaks is one piece, so the tail is not always next
  induction hn : s.length using Nat.strongRecOn generalizing s before col with
  | ind n ih =>
  cases s with
  | nil =>
    refine .nil ?_
    rw [singlePiece, if_neg (by decide), if_pos rfl, if_neg hrest]
  | cons c s =>
    rw [List.length_cons] at hn
    have htail : Single s := h.of_suffix (List.suffix_cons c s)
    by_cases hspace : c = ' '
    · subst hspace
      have hs : s.head? ≠ some '\n' := by
        intro hs
        obtain ⟨t, rfl⟩ := List.head?_eq_some_iff.1 hs
        exact ne_of_no_pair h.before rfl
      rcases flow_space p quoteSingle before col s with hflow | ⟨-, ⟨d, t, rfl, hd⟩, hflow⟩
      · have hbreak := no_break_flow (p := p) (col + 1) starts_quoteSingle h.before
          fun _ => hquote
        have hread : singlePiece m (' ' :: (flow p quoteSingle ' ' (col + 1) s ++ '\'' :: rest)) =
            some ([' '], _) := readWhites_space m hbreak
        rw [hflow]
        exact .cons hread (Nat.lt_succ_self _) (ih _ (by omega) _ _ htail (fun _ => hs) rfl)
      · have hsolid : IsSolid (flow p quoteSingle ' ' p.indent (d :: t) ++ '\'' :: rest) := by
          refine isSolid_flow starts_quoteSingle (isSolid_cons ?_ t) fun _ => hquote
          exact isWhite_eq_false_iff.2 ⟨hd, fun hbreak => hs (by rw [hbreak]; rfl)⟩
        have hread := singlePiece_newLines hm 0 hsolid
        rw [hflow, List.append_assoc]
        exact .cons hread (length_lt_newLines _ _ _) (ih _ (by omega) _ _ htail (fun _ => hs) rfl)
    by_cases hbreak : c = '\n'
    · subst hbreak
      obtain ⟨j, t, rfl, ht⟩ := exists_breaks s
      have hbefore : before ≠ '\n' := fun h => hb h rfl
      have hflow := flow_breaks (p := p) (q := quoteSingle) col hbefore ht j
      have hsolid : IsSolid (flow p quoteSingle '\n' p.indent t ++ '\'' :: rest) := by
        refine isSolid_flow starts_quoteSingle ?_ fun _ => hquote
        intro d hd
        obtain ⟨t, rfl⟩ := List.head?_eq_some_iff.1 hd
        refine isWhite_eq_false_iff.2 ⟨?_, by simpa using ht⟩
        rintro rfl
        refine h.behind ⟨List.replicate j '\n', t, ?_⟩
        rw [← List.cons_append, ← List.replicate_succ, List.replicate_succ']
        simp
      have hread := singlePiece_newLines hm (j + 1) hsolid
      rw [List.replicate_succ, List.cons_append] at hflow
      rw [hflow, List.append_assoc]
      exact .cons hread (length_lt_newLines _ _ _)
        (ih t.length (by simp at hn; omega) _ _ (htail.of_suffix (List.suffix_append _ t))
          (fun _ => ht) rfl)
    · have hsolid := isWhite_eq_false_iff.2 ⟨hspace, hbreak⟩
      rw [flow_char hsolid, List.append_assoc]
      refine .cons (singlePiece_quoteSingle hsolid _) ?_
        (ih _ (by omega) _ _ htail (fun hc => absurd hc hbreak) rfl)
      have := List.length_pos_iff.2 (starts_quoteSingle c hsolid).ne_nil
      simp only [List.length_append]
      omega

end Single

section Double

theorem mem_namedEscapes {c e : Char} (h : namedEscapes.lookup c = some e) :
    (c, e) ∈ namedEscapes := by
  obtain ⟨l, l', hl, -⟩ := List.lookup_eq_some_iff.1 h
  rw [hl]
  exact List.mem_append_right l List.mem_cons_self

theorem named?_namedEscapes : ∀ x ∈ namedEscapes, named? x.2 = some x.1 ∧ x.2 ≠ '\n' := by decide

theorem of_escape?_eq_none {c : Char} (h : escape? c = none) :
    isPrintable c = true ∧ c ≠ '"' ∧ c ≠ '\\' := by
  unfold escape? at h
  split at h
  · cases h
  next hl =>
  rw [List.lookup_eq_none_iff] at hl
  refine ⟨?_, ?_, ?_⟩
  · split at h
    · assumption
    · split at h
      · cases h
      · split at h <;> cases h
  · rintro rfl
    exact absurd (hl ('"', '"') (by decide)) (by decide)
  · rintro rfl
    exact absurd (hl ('\\', '\\') (by decide)) (by decide)

/-- An escape is read as its character. -/
theorem readEscape_escape? {c : Char} {e : List Char} (h : escape? c = some e) (x : List Char) :
    ∃ d y, e = '\\' :: d :: y ∧ d ≠ '\n' ∧ readEscape (d :: y ++ x) = some ([c], x) := by
  have hnumber : ∀ (d : Char) (w : Nat), named? d = none → digitsOf? d = some w →
      c.toNat < 16 ^ w → readEscape (d :: hexUpper w c.toNat ++ x) = some ([c], x) := by
    intro d w hnamed hdigits hc
    rw [List.cons_append, readEscape, hnamed]
    simp only [hdigits, Option.bind_eq_bind, Option.bind_some, readHex?_hexUpper hc, charOf?_toNat]
    rfl
  unfold escape? at h
  split at h
  · next d hl =>
    cases h
    obtain ⟨hnamed, hd⟩ := named?_namedEscapes _ (mem_namedEscapes hl)
    refine ⟨d, [], rfl, hd, ?_⟩
    rw [List.singleton_append, readEscape, hnamed]
  split at h
  · cases h
  split at h
  · next hc =>
    cases h
    exact ⟨'x', _, rfl, by decide, hnumber 'x' 2 rfl rfl hc⟩
  split at h
  · next hc =>
    cases h
    exact ⟨'u', _, rfl, by decide, hnumber 'u' 4 rfl rfl hc⟩
  · cases h
    refine ⟨'U', _, rfl, by decide, hnumber 'U' 8 rfl rfl ?_⟩
    have hv : c.toNat.isValidChar := c.valid
    simp only [Nat.isValidChar] at hv
    omega

variable {p : Place} {m : Nat} {rest : List Char}

theorem doublePiece_escape? {c : Char} {e : List Char} (h : escape? c = some e) (x : List Char) :
    doublePiece m (e ++ x) = some ([c], x) ∧ x.length < (e ++ x).length := by
  obtain ⟨d, y, rfl, hd, hread⟩ := readEscape_escape? h x
  constructor
  · rw [List.cons_append, doublePiece, if_neg (by decide), if_neg (by decide), if_pos rfl,
      if_neg (by simpa using hd), hread]
  · simp only [List.cons_append, List.length_cons, List.length_append]
    omega

theorem doublePiece_plain {c : Char} (h : escape? c = none) (hc : c ≠ ' ') (x : List Char) :
    doublePiece m (c :: x) = some ([c], x) := by
  obtain ⟨hprintable, hquote, hback⟩ := of_escape?_eq_none h
  rw [doublePiece, if_neg (by simp [isWhite_of_printable hprintable hc]), if_neg hquote,
    if_neg hback]

/-- A line end that counts for nothing. -/
theorem pieces_newLines (hm : m ≤ p.indent) {s x : List Char} (hx : IsSolid x)
    (more : Pieces (doublePiece m) rest s x) :
    Pieces (doublePiece m) rest s ('\\' :: (newLines 0 p.indent ++ x)) := by
  have hhead : (newLines 0 p.indent ++ x).head? = some '\n' := rfl
  have hread : doublePiece m ('\\' :: (newLines 0 p.indent ++ x)) = some ([], x) := by
    rw [doublePiece, if_neg (by decide), if_neg (by decide), if_pos rfl, if_pos hhead,
      whites_append (white_newLines 0 _) hx, columnOf_newLines, count_newLines,
      skipWhites_append (white_newLines 0 _), skipWhites_of_solid hx, if_neg (Nat.not_lt.2 hm)]
    rfl
  refine .cons hread ?_ more
  have := length_lt_newLines 0 p.indent x
  rw [List.length_cons]
  omega

variable {first fresh : Bool} {col : Nat} {c : Char} {s : List Char}

theorem flowEscaped_escape (p : Place) (first fresh : Bool) (col : Nat) (s : List Char)
    {e : List Char} (h : escape? c = some e) :
    flowEscaped p first fresh col (c :: s) = e ++ flowEscaped p false true (col + e.length) s ∨
      p.folds = true ∧ flowEscaped p first fresh col (c :: s) =
        e ++ lineBreak p s.head? ++ flowEscaped p false true (columnBehind p s.head?) s := by
  simp only [flowEscaped, h]
  split
  · next hbreak =>
    simp only [Bool.and_eq_true] at hbreak
    exact .inr ⟨hbreak.1.1.1, rfl⟩
  · exact .inl rfl

theorem flowEscaped_plain (p : Place) (first fresh : Bool) (col : Nat) (s : List Char)
    (h : escape? c = none) :
    flowEscaped p first fresh col (c :: s) = c :: flowEscaped p false false (col + 1) s ∨
      p.folds = true ∧ flowEscaped p first fresh col (c :: s) =
        lineBreak p (some c) ++ c :: flowEscaped p false false (columnBehind p (some c) + 1) s := by
  simp only [flowEscaped, h]
  split
  · next hbreak =>
    simp only [Bool.and_eq_true] at hbreak
    exact .inr ⟨hbreak.1.1.1.1, rfl⟩
  · exact .inl rfl

/-- A space at the start of a line is followed by no further line end. -/
theorem flowEscaped_start (hp : p.indent < width) :
    flowEscaped p false true (columnBehind p (some ' ')) (' ' :: s) =
      ' ' :: flowEscaped p false false (p.indent + 2) s := by
  have hplain : escape? ' ' = none := by decide
  have hcol : ¬ width < columnBehind p (some ' ') := by
    rw [columnBehind, if_pos rfl]
    omega
  simp only [flowEscaped, hplain, hcol, decide_false, Bool.and_false]
  rfl

theorem isSolid_flowEscaped (p : Place) (first fresh : Bool) (col : Nat) (rest : List Char)
    (hs : s.head? ≠ some ' ') :
    IsSolid (flowEscaped p first fresh col s ++ '"' :: rest) := by
  cases s with
  | nil => exact isSolid_cons (by decide) rest
  | cons c s =>
    cases he : escape? c with
    | some e =>
      obtain ⟨d, y, rfl, -, -⟩ := readEscape_escape? he []
      rcases flowEscaped_escape p first fresh col s he
        with h | ⟨-, h⟩ <;> rw [h] <;> exact isSolid_cons (by decide) _
    | none =>
      rcases flowEscaped_plain p first fresh col s he
        with h | ⟨-, h⟩ <;> rw [h]
      · exact isSolid_cons (isWhite_of_printable (of_escape?_eq_none he).1 (by simpa using hs)) _
      · exact isSolid_cons (by decide) _

/-- No line ends behind an unescaped space. -/
theorem no_break_flowEscaped : '\n' ∉ whites (flowEscaped p first fresh col s ++ '"' :: rest) := by
  induction s generalizing first fresh col with
  | nil => exact no_break_of_solid (isSolid_flowEscaped _ _ _ _ _ (by simp))
  | cons c s ih =>
    by_cases hc : c = ' '
    · subst hc
      have hplain : escape? ' ' = none := by decide
      rcases flowEscaped_plain p first fresh col s hplain with h | ⟨-, h⟩ <;> rw [h]
      · rw [List.cons_append, whites_space]
        exact List.not_mem_cons_of_ne_of_not_mem (by decide) ih
      · rw [lineBreak]
        exact no_break_of_solid (isSolid_cons (by decide) _)
    · exact no_break_of_solid (isSolid_flowEscaped _ _ _ _ _ (by simpa using hc))

theorem doublePiece_space :
    doublePiece m (' ' :: (flowEscaped p first fresh col s ++ '"' :: rest)) =
      some ([' '], flowEscaped p first fresh col s ++ '"' :: rest) :=
  readWhites_space m no_break_flowEscaped

/-- A space behind a line end is escaped. -/
theorem doublePiece_escaped_space (x : List Char) :
    doublePiece m ('\\' :: ' ' :: x) = some ([' '], x) := rfl

theorem lineBreak_space : lineBreak p (some ' ') = '\\' :: (newLines 0 p.indent ++ ['\\']) := rfl

theorem lineBreak_of_ne {next : Option Char} (h : next ≠ some ' ') :
    lineBreak p next = '\\' :: newLines 0 p.indent := by
  rw [lineBreak, if_neg h, List.append_nil]
  rfl

/-- A line that ends before an unescaped character. -/
theorem pieces_lineBreak (hm : m ≤ p.indent) (hc : escape? c = none) {x : List Char}
    (more : Pieces (doublePiece m) rest s x) :
    Pieces (doublePiece m) rest (c :: s) (lineBreak p (some c) ++ c :: x) := by
  by_cases hspace : c = ' '
  · subst hspace
    have hsolid : IsSolid ('\\' :: ' ' :: x) := isSolid_cons (by decide) _
    have hafter : Pieces (doublePiece m) rest (' ' :: s) ('\\' :: ' ' :: x) :=
      .cons (doublePiece_escaped_space x) (by simp only [List.length_cons]; omega) more
    rw [lineBreak_space, List.cons_append, List.append_assoc, List.singleton_append]
    exact pieces_newLines hm hsolid hafter
  · have hsolid : IsSolid (c :: x) :=
      isSolid_cons (isWhite_of_printable (of_escape?_eq_none hc).1 hspace) x
    have hafter : Pieces (doublePiece m) rest (c :: s) (c :: x) :=
      .cons (doublePiece_plain hc hspace x) (Nat.lt_succ_self _) more
    rw [lineBreak_of_ne (by simpa using hspace), List.cons_append]
    exact pieces_newLines hm hsolid hafter

theorem pieces_double (rest : List Char) (hm : m ≤ p.indent) (hp : p.indent < width) (s : List Char)
    (first fresh : Bool) (col : Nat) :
    Pieces (doublePiece m) ('"' :: rest) s (flowEscaped p first fresh col s ++ '"' :: rest) := by
  -- a space behind an escape at which the line ends is read together with the line end
  induction hn : s.length using Nat.strongRecOn generalizing s first fresh col with
  | ind n ih =>
  cases s with
  | nil => exact .nil rfl
  | cons c s =>
    rw [List.length_cons] at hn
    cases he : escape? c with
    | some e =>
      rcases flowEscaped_escape p first fresh col s he
        with h | ⟨-, h⟩ <;> rw [h, List.append_assoc]
      · obtain ⟨hread, hlen⟩ := doublePiece_escape? (m := m) he
          (flowEscaped p false true (col + e.length) s ++ '"' :: rest)
        exact .cons hread hlen (ih _ (by omega) s _ _ _ rfl)
      -- the line ends behind the escape
      rw [List.append_assoc]
      obtain ⟨hread, hlen⟩ := doublePiece_escape? (m := m) he (lineBreak p s.head? ++
        (flowEscaped p false true (columnBehind p s.head?) s ++ '"' :: rest))
      refine .cons hread hlen ?_
      by_cases hspace : s.head? = some ' '
      · obtain ⟨t, rfl⟩ := List.head?_eq_some_iff.1 hspace
        rw [List.length_cons] at hn
        rw [List.head?_cons, flowEscaped_start hp, List.cons_append]
        exact pieces_lineBreak hm (by decide) (ih _ (by omega) t _ _ _ rfl)
      · have hsolid := isSolid_flowEscaped p false true (columnBehind p s.head?) rest hspace
        rw [lineBreak_of_ne hspace, List.cons_append]
        exact pieces_newLines hm hsolid (ih _ (by omega) s _ _ _ rfl)
    | none =>
      rcases flowEscaped_plain p first fresh col s he
        with h | ⟨-, h⟩ <;> rw [h]
      · rw [List.cons_append]
        have more := ih _ (by omega) s false false (col + 1) rfl
        by_cases hspace : c = ' '
        · subst hspace
          exact .cons doublePiece_space (Nat.lt_succ_self _) more
        · exact .cons (doublePiece_plain he hspace _) (Nat.lt_succ_self _) more
      · rw [List.append_assoc, List.cons_append]
        exact pieces_lineBreak hm he (ih _ (by omega) s _ _ _ rfl)

end Double

end EnvKeeper.Yaml
