import EnvKeeper.Proofs.Reference.Leftmost
import EnvKeeper.Proofs.Text.LineEnds

/-! No reference goes over a separator, so a text can be cut at one: what is found on its two sides
is found in the whole. So it is found line by line too, and it does not matter how lines end. -/

namespace EnvKeeper.Reference

/-- A character that no reference holds and that ends a word. -/
def IsSeparator (c : Char) : Prop :=
  isWord c = false ∧ c ∉ ['.', '[', ']', '(', ')', '\'', '"']

instance (c : Char) : Decidable (IsSeparator c) := inferInstanceAs (Decidable (_ ∧ _))

theorem isSeparator_newline : IsSeparator '\n' := by decide

theorem isSeparator_return : IsSeparator '\r' := by decide

theorem mem_space_text {n : Namespace} : ∀ c ∈ n.text, isWord c = true ∨ c = '.' := by
  have h : (n.text.all fun c => isNameChar c || c == '.') = true := by
    cases n <;> rfl
  intro c hc
  rcases Bool.or_eq_true_iff.1 (List.all_eq_true.1 h c hc) with h | h
  · exact .inl (isWord_of_isNameChar h)
  · exact .inr (beq_iff_eq.1 h)

theorem mem_quote (q : Quote) : q.char = '\'' ∨ q.char = '"' := by
  cases q <;> decide

theorem mem_access_text {a : Access} {name : List Char} :
    ∀ c ∈ a.text name, c ∈ name ∨ c ∈ ['.', '[', ']', '(', ')', '\'', '"'] := by
  intro c hc
  cases a with
  | member => grind [Access.text]
  | index o q => grind [Access.text, mem_quote]
  | call o q => grind [Access.text, mem_quote]

theorem IsSeparator.not_mem_text {c : Char} (hc : IsSeparator c) {r : Reference}
    (hr : IsName r.name) : c ∉ r.text := by
  intro hm
  rcases List.mem_append.1 hm with h | h
  · rcases mem_space_text c h with hw | rfl
    · rw [hc.1] at hw; cases hw
    · exact hc.2 (by decide)
  · rcases mem_access_text c h with hn | hp
    · have hw := isWord_of_isNameChar (hr.2 c hn)
      rw [hc.1] at hw; cases hw
    · exact hc.2 hp

theorem read?_append_separator {spaces : List Namespace} {before : Option Char} {c : Char}
    (hc : IsSeparator c) (s t : List Char) :
    read? spaces before (s ++ c :: t) = read? spaces before s := by
  apply Option.ext
  intro r
  rw [read?_eq_some, read?_eq_some]
  refine and_congr_right fun _ => ⟨?_, ?_⟩
  · rintro ⟨after, he, hf⟩
    -- the text of `r` lies in front of the separator
    rcases List.append_eq_append_iff.1 he with ⟨as, hs, ht⟩ | ⟨bs, hs, ht⟩
    · cases as with
      | nil => exact ⟨[], by simpa using hs.symm, hf.name, hf.left, fun _ _ h => nomatch h⟩
      | cons d as =>
        rw [List.cons_append] at ht
        obtain ⟨rfl, -⟩ := List.cons.inj ht
        exact absurd (by simp [hs]) (hc.not_mem_text hf.name)
    · refine ⟨bs, hs, hf.name, hf.left, fun hm d hd => ?_⟩
      exact hf.right hm d (by rw [ht, List.head?_append, hd]; rfl)
  · rintro ⟨after, rfl, hf⟩
    refine ⟨after ++ c :: t, List.append_assoc .., hf.name, hf.left, fun hm d hd => ?_⟩
    cases after with
    | nil => cases hd; exact hc.1
    | cons a after => exact hf.right hm d hd

theorem read?_nil (spaces : List Namespace) (before : Option Char) :
    read? spaces before [] = none := by
  cases h : read? spaces before [] with
  | none => rfl
  | some r =>
    obtain ⟨-, after, he, -⟩ := read?_eq_some.1 h
    exact absurd (List.append_eq_nil_iff.1 he.symm).1 r.text_ne_nil

theorem search_append_separator {spaces : List Namespace} {c : Char} (hc : IsSeparator c)
    (a b : List Char) (before : Option Char) (pos skip : Nat) (hs : skip ≤ a.length) :
    search spaces before pos skip (a ++ c :: b) =
      search spaces before pos skip a ++ search spaces (some c) (pos + a.length + 1) 0 b := by
  induction a generalizing before pos skip with
  | nil =>
    obtain rfl : skip = 0 := Nat.le_zero.1 hs
    have hn : read? spaces before (c :: b) = none := by
      rw [← List.nil_append (c :: b), read?_append_separator hc, read?_nil]
    simp [search, hn]
  | cons x a ih =>
    have hp : pos + (x :: a).length + 1 = pos + 1 + a.length + 1 := by
      rw [List.length_cons]
      omega
    rw [List.cons_append, hp]
    cases skip with
    | succ k =>
      rw [search, search]
      exact ih _ _ k (Nat.le_of_succ_le_succ hs)
    | zero =>
      have hr : read? spaces before (x :: (a ++ c :: b)) = read? spaces before (x :: a) :=
        read?_append_separator hc (x :: a) b
      rw [search, search, hr]
      cases h : read? spaces before (x :: a) with
      | none => exact ih _ _ 0 (Nat.zero_le _)
      | some r =>
        obtain ⟨-, after, he, -⟩ := read?_eq_some.1 h
        have hl := congrArg List.length he
        rw [List.length_cons, List.length_append] at hl
        exact congrArg _ (ih _ _ (r.text.length - 1) (by omega))

/-- Of what stands before a text only that it ends in a word counts, and of the place nothing. -/
theorem search_names_eq {spaces : List Namespace} {before before' : Option Char}
    (hb : before.any isWord = before'.any isWord) (pos pos' skip : Nat) (s : List Char) :
    (search spaces before pos skip s).map Prod.snd =
      (search spaces before' pos' skip s).map Prod.snd := by
  induction s generalizing before before' pos pos' skip with
  | nil => rfl
  | cons c s ih =>
    cases skip with
    | succ k => exact ih rfl _ _ k
    | zero =>
      have hr : read? spaces before (c :: s) = read? spaces before' (c :: s) := by
        simp only [read?, hb]
      rw [search, search, hr]
      cases read? spaces before' (c :: s) with
      | none => exact ih rfl _ _ 0
      | some r => exact congrArg (r :: ·) (ih rfl _ _ _)

theorem names_append_separator {c : Char} (hc : IsSeparator c) (a b : List Char) :
    names (a ++ c :: b) = names a ++ names b := by
  have hmap (l : List (Nat × Reference)) :
      l.map (fun p => String.ofList p.2.name) =
        (l.map Prod.snd).map fun r => String.ofList r.name := by
    rw [List.map_map]
    rfl
  have hb : (some c).any isWord = (none : Option Char).any isWord := hc.1
  simp only [names, inText, hmap]
  rw [search_append_separator hc a b none 0 0 (Nat.zero_le _), List.map_append, List.map_append,
    search_names_eq hb _ 0 0 b]

/-- Separators at the start of a text hold no reference. -/
theorem names_separators_append {seps : List Char} (h : ∀ c ∈ seps, IsSeparator c) (b : List Char) :
    names (seps ++ b) = names b := by
  induction seps with
  | nil => rfl
  | cons c seps ih =>
    obtain ⟨hc, hseps⟩ := List.forall_mem_cons.1 h
    rw [List.cons_append, ← ih hseps]
    exact names_append_separator hc [] _

theorem names_append_separators {seps : List Char} (hne : seps ≠ [])
    (h : ∀ c ∈ seps, IsSeparator c) (a b : List Char) :
    names (a ++ (seps ++ b)) = names a ++ names b := by
  obtain ⟨c, seps, rfl⟩ := List.exists_cons_of_ne_nil hne
  obtain ⟨hc, hseps⟩ := List.forall_mem_cons.1 h
  rw [List.cons_append, names_append_separator hc, names_separators_append hseps]

/-- A piece of a text and the separators behind it, as a line and its end. -/
structure Line where
  body : List Char
  ending : List Char
  deriving DecidableEq, Repr

def Line.text (l : Line) : List Char := l.body ++ l.ending

def Line.IsEnded (l : Line) : Prop := l.ending ≠ [] ∧ ∀ c ∈ l.ending, IsSeparator c

instance (l : Line) : Decidable l.IsEnded :=
  decidable_of_iff ((!l.ending.isEmpty && l.ending.all fun c => decide (IsSeparator c)) = true)
    (by simp [Line.IsEnded])

theorem names_lines_append {lines : List Line} (h : ∀ l ∈ lines, l.IsEnded) (last : List Char) :
    names (lines.flatMap Line.text ++ last) =
      lines.flatMap (fun l => names l.body) ++ names last := by
  induction lines with
  | nil => rfl
  | cons l lines ih =>
    obtain ⟨hl, hlines⟩ := List.forall_mem_cons.1 h
    rw [List.flatMap_cons, List.flatMap_cons, List.append_assoc, List.append_assoc, ← ih hlines,
      Line.text, List.append_assoc]
    exact names_append_separators hl.1 hl.2 _ _

/-- The text in front is one that was gone through. Up to the next line end it grows, and there the text
is cut. -/
theorem names_append_unifyLineEnds (a s : List Char) :
    names (a ++ unifyLineEnds s) = names (a ++ s) := by
  fun_induction unifyLineEnds s generalizing a with
  | case1 => rfl
  | case2 s ih =>
    have hend : ∀ c ∈ ['\r', '\n'], IsSeparator c := by
      simp [isSeparator_return, isSeparator_newline]
    have hrest : names (unifyLineEnds s) = names s := ih []
    rw [names_append_separator isSeparator_newline, hrest]
    exact (names_append_separators (List.cons_ne_nil _ _) hend a s).symm
  | case3 c s _ ih =>
    by_cases hc : c = '\r'
    · rw [if_pos hc, hc, names_append_separator isSeparator_newline,
        names_append_separator isSeparator_return]
      exact congrArg _ (ih [])
    · rw [if_neg hc, List.append_cons, ih, ← List.append_cons]

theorem names_unifyLineEnds (s : List Char) : names (unifyLineEnds s) = names s :=
  names_append_unifyLineEnds [] s

/-- A text can be cut at any separator, and so into lines however they end: what is found in it is
found in its pieces, in order. A file with other line ends has the same references. -/
theorem names_cut :
    (∀ (a : List Char) (c : Char) (b : List Char), IsSeparator c →
      names (a ++ c :: b) = names a ++ names b) ∧
    (∀ (lines : List Line) (last : List Char), (∀ l ∈ lines, l.IsEnded) →
      names (lines.flatMap Line.text ++ last) =
        lines.flatMap (fun l => names l.body) ++ names last) ∧
    (∀ s : List Char, names (unifyLineEnds s) = names s) ∧
    ∀ c ∈ ['\n', '\r', ' ', ';', '='], IsSeparator c := by
  refine ⟨fun a _ b hc => names_append_separator hc a b, fun _ last h => names_lines_append h last,
    names_unifyLineEnds, ?_⟩
  have hseps : IsSeparator ' ' ∧ IsSeparator ';' ∧ IsSeparator '=' := by decide
  simpa [isSeparator_newline, isSeparator_return] using hseps

/-- A CR cuts a name off its dot, and three lines with three line ends have their own names. -/
theorem names_cut_mixed :
    names "env.\rA;env.B".toList = ["B"] ∧
      names "env.A\r\nenv('B\")\renv.C".toList = ["A", "B", "C"] := by
  constructor
  · have h := names_cut.1 "env.".toList '\r' "A;env.B".toList (by decide)
    exact h.trans (by decide)
  · have h := names_cut.2.1 [⟨"env.A".toList, ['\r', '\n']⟩, ⟨"env('B\")".toList, ['\r']⟩]
      "env.C".toList (by decide)
    exact h.trans (by decide)

/-- Every reference opens its name by a dot or a bracket. -/
theorem names_eq_nil {s : List Char} (h : ∀ c ∈ s, c ∉ ['.', '[', '(']) : names s = [] := by
  rw [names, List.map_eq_nil_iff, List.eq_nil_iff_forall_not_mem]
  intro p hp
  obtain ⟨-, before, after, rfl, -⟩ := (inText_leftmost s).occurs p hp
  have ho : ∃ c ∈ p.2.access.text p.2.name, c ∈ ['.', '[', '('] := by
    cases p.2.access with
    | member => exact ⟨'.', List.mem_cons_self, by decide⟩
    | index o q => exact ⟨'[', List.mem_cons_self, by decide⟩
    | call o q => exact ⟨'(', List.mem_cons_self, by decide⟩
  obtain ⟨c, hc, hm⟩ := ho
  exact h c (by simp [Reference.text, hc]) hm

/-- A file that grows by a line feed and a text without references has the references it had. -/
theorem names_unifyLineEnds_append (t : List Char) {x : List Char} (hx : names (unifyLineEnds x) = []) :
    names (unifyLineEnds (t ++ '\n' :: x)) = names (unifyLineEnds t) := by
  rw [names_unifyLineEnds] at hx ⊢
  rw [names_append_separator isSeparator_newline, hx, List.append_nil, names_unifyLineEnds]

theorem isName_of_mem_names {s : List Char} {n : String} (h : n ∈ names s) : IsName n.toList := by
  obtain ⟨p, hp, rfl⟩ := List.mem_map.1 h
  obtain ⟨-, before, after, -, -, hf⟩ := (inText_leftmost s).occurs p hp
  rw [String.toList_ofList]
  exact hf.name

end EnvKeeper.Reference
