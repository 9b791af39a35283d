import EnvKeeper.Proofs.Declarations.Keys
import EnvKeeper.Proofs.Store.Outcome
import EnvKeeper.Proofs.Text.LineEnds

/-! A reading goes forward: each step takes at least one character, failed or not, until only white
space is left. The line is counted on with each piece that is taken, at most by the line ends in it;
a failed statement goes on to the next line or to the end of the text, so no line is warned of twice. -/

namespace EnvKeeper.Declarations

namespace Cursor

variable {c d e : Cursor}

/-- From `c` on to `d`: the line does not go back, and not beyond the line ends that were passed. -/
structure Moves (c d : Cursor) : Prop where
  suffix : d.rest <:+ c.rest
  line_le : c.line ≤ d.line
  le_line : d.line + d.rest.countP isLineEnd ≤ c.line + c.rest.countP isLineEnd

theorem Moves.refl (c : Cursor) : Moves c c := ⟨List.suffix_rfl, Nat.le_refl _, Nat.le_refl _⟩

theorem Moves.trans (h : Moves c d) (h' : Moves d e) : Moves c e :=
  ⟨h'.suffix.trans h.suffix, h.line_le.trans h'.line_le, h'.le_line.trans h.le_line⟩

theorem moves_past {piece rest : List Char} (h : c.rest = piece ++ rest) :
    Moves c (c.past piece rest) := by
  refine ⟨h ▸ List.suffix_append piece rest, Nat.le_add_right _ _, ?_⟩
  have := lineEnds_le piece
  rw [h, List.countP_append]
  simp only [past]
  omega

theorem moves_of_line (hs : d.rest <:+ c.rest) (hl : d.line = c.line) : Moves c d := by
  have := hs.sublist.countP_le (p := isLineEnd)
  exact ⟨hs, hl.ge, by omega⟩

theorem moves_skipWhile (p : Char → Bool) (c : Cursor) : Moves c (c.skipWhile p) :=
  moves_past List.takeWhile_append_dropWhile.symm

theorem moves_skipExport (c : Cursor) : Moves c c.skipExport := by
  unfold skipExport
  split
  · next s h =>
    have hs : s <:+ c.rest := afterStart?_eq_some.1 h ▸ List.suffix_append _ s
    have hword : Moves c ⟨s, c.line⟩ := moves_of_line hs rfl
    split
    · exact hword.trans (moves_skipWhile _ _)
    · exact .refl c
  · exact .refl c

theorem moves_key {k : Option (List Char)} (h : c.key = .ok (k, d)) : Moves c d := by
  unfold key at h
  split at h
  · cases h
    exact .refl c
  · next s hs =>
    split at h
    · next x k q rest ht hr =>
      cases h
      refine moves_past ?_
      have := List.takeWhile_append_dropWhile (p := (· != '\'')) (l := s)
      rw [ht, hr] at this
      rw [hs, ← this]
      simp
    · cases h
  · simp only at h
    split at h
    · cases h
    · cases h
      exact moves_past List.takeWhile_append_dropWhile.symm

theorem moves_quotedValue {q : Char} {known : Char → Option Char} {s v : List Char}
    (hs : c.rest = q :: s) (h : c.quotedValue q known s = .ok (v, d)) : Moves c d := by
  unfold quotedValue at h
  split at h
  · next body rest hsplit =>
    cases h
    refine moves_past ?_
    rw [hs, splitAtQuote_append hsplit]
    simp
  · cases h

theorem moves_plainValue {v : List Char} (h : c.plainValue = .ok (v, d)) : Moves c d := by
  unfold plainValue at h
  split at h
  · next hs => exact moves_quotedValue hs h
  · next hs => exact moves_quotedValue hs h
  · cases h
    exact moves_past List.takeWhile_append_dropWhile.symm

def stop {α : Type} : Except Cursor (α × Cursor) → Cursor
  | .ok r => r.2
  | .error d => d

/-- Behind `=` and white space there is a value, or a quote that is not closed. -/
theorem moves_value (c : Cursor) : Moves c (stop c.value) := by
  by_cases he : c.rest.head? = some '='
  · obtain ⟨s, hs⟩ := List.head?_eq_some_iff.1 he
    have hsign : Moves c ⟨s, c.line⟩ := moves_of_line (by rw [hs]; exact List.suffix_cons '=' s) rfl
    have hskip : Moves c (skipWhile isInline ⟨s, c.line⟩) := hsign.trans (moves_skipWhile _ _)
    rw [value_assigned hs]
    split
    · exact hskip
    · cases hp : (skipWhile isInline ⟨s, c.line⟩).plainValue with
      | error e =>
        rw [plainValue_error hp]
        exact hskip
      | ok r => exact hskip.trans (moves_plainValue hp)
  · have hv : c.value = .ok (none, c) := by
      unfold value
      split
      · next s hs => exact absurd (by rw [hs]; rfl) he
      · rfl
    rw [hv]
    exact .refl c

theorem moves_skipComment (c : Cursor) : Moves c c.skipComment := by
  refine moves_of_line (skipComment_suffix c) ?_
  unfold skipComment
  split <;> rfl

theorem moves_lineEnd (h : c.lineEnd = .ok d) : Moves c d := by
  have hblanks := moves_skipWhile isInline c
  have hs := lineEnd_suffix h
  have hcount (e : Char) (s : List Char) (he : isLineEnd e = true)
      (hr : c.rest.dropWhile isInline = e :: s) :
      s.countP isLineEnd + 1 ≤ c.rest.countP isLineEnd := by
    have := (List.dropWhile_suffix isInline (l := c.rest)).sublist.countP_le (p := isLineEnd)
    rwa [hr, List.countP_cons, if_pos he] at this
  unfold lineEnd at h
  split at h
  · cases h
    exact moves_of_line hs rfl
  · next s hr =>
    cases h
    have hcr := hcount _ _ (by decide) hr
    rw [List.countP_cons] at hcr
    exact ⟨hs, Nat.le_succ _, by simp only; omega⟩
  · next e s _ hr =>
    split at h <;> cases h
    next he =>
    have hend := hcount e s he hr
    exact ⟨hs, Nat.le_succ _, by simp only; omega⟩

theorem moves_skipLine (c : Cursor) : Moves c c.skipLine := by
  have hsplit := List.takeWhile_append_dropWhile (p := (!isLineEnd ·)) (l := c.rest)
  unfold skipLine
  split
  · next hr =>
    rw [hr] at hsplit
    exact moves_past hsplit.symm
  · next e s hr =>
    rw [hr] at hsplit
    exact moves_past (by simpa using hsplit.symm)

/-- Behind a line that is skipped a new line starts, or the text is at its end. -/
theorem lt_line_skipLine (h : c.skipLine.rest ≠ []) : c.line < c.skipLine.line := by
  unfold skipLine at h ⊢
  split
  · next hr =>
    rw [hr] at h
    exact absurd rfl h
  · next e s hr =>
    have he : isLineEnd e = true := by simpa using eq_false_of_dropWhile hr
    exact Nat.lt_add_of_pos_right (lineEnds_pos (by simp) he)

theorem moves_statement (c : Cursor) : Moves c (stop c.statement) := by
  have hstart := moves_skipExport c
  cases hk : c.skipExport.key with
  | error e =>
    simp only [statement, hk, bind, Except.bind]
    rw [key_error hk]
    exact hstart
  | ok r =>
    obtain ⟨k, e⟩ := r
    have hkey := (hstart.trans (moves_key hk)).trans (moves_skipWhile isInline e)
    have hvalue := hkey.trans (moves_value (e.skipWhile isInline))
    cases hv : (e.skipWhile isInline).value with
    | error f =>
      simp only [statement, hk, hv, bind, Except.bind]
      rwa [hv] at hvalue
    | ok r =>
      obtain ⟨v, f⟩ := r
      rw [hv] at hvalue
      have hcomment := hvalue.trans (moves_skipComment f)
      cases hl : f.skipComment.lineEnd with
      | error g =>
        simp only [statement, hk, hv, hl, bind, Except.bind]
        rw [lineEnd_error hl]
        exact hcomment
      | ok g =>
        simp only [statement, hk, hv, hl, bind, Except.bind, pure, Except.pure]
        exact hcomment.trans (moves_lineEnd hl)

theorem moves_next? {i : Item} (h : c.next? = some (i, d)) : Moves c d := by
  have hmove := (moves_skipWhile isBlank c).trans (moves_statement (c.skipWhile isBlank))
  rcases next?_cases h with ⟨b, -, he⟩ | ⟨e, -, he, rfl⟩
  · rwa [he] at hmove
  · rw [he] at hmove
    exact hmove.trans (moves_skipLine e)

/-- A failed statement is warned of with the line at which its step started, and a step behind it starts
on a later line. -/
theorem next?_malformed {line : Nat} (h : c.next? = some (.malformed line, d)) :
    line = c.line ∧ (d.rest ≠ [] → c.line < d.line) := by
  have hmove := (moves_skipWhile isBlank c).trans (moves_statement (c.skipWhile isBlank))
  rcases next?_cases h with ⟨b, hb, -⟩ | ⟨e, hi, he, rfl⟩
  · cases hb
  · cases hi
    rw [he] at hmove
    exact ⟨rfl, fun hrest => Nat.lt_of_le_of_lt hmove.line_le (lt_line_skipLine hrest)⟩

theorem next?_nil (h : c.rest = []) : c.next? = none := next?_of_blank (by rw [h]; rfl)

theorem mem_warned {n : Nat} (h : n ∈ c.warned) :
    c.line ≤ n ∧ n ≤ c.line + c.rest.countP isLineEnd := by
  induction c using Cursor.items.induct with
  | case1 c hc =>
    rw [warned_of_none hc] at h
    cases h
  | case2 c i d hc _ ih =>
    have hmove := moves_next? hc
    rw [warned_of_some hc] at h
    rcases List.mem_append.1 h with h | h
    · cases i with
      | bound b => cases h
      | malformed line =>
        obtain rfl := List.mem_singleton.1 h
        obtain ⟨rfl, -⟩ := next?_malformed hc
        exact ⟨Nat.le_refl _, Nat.le_add_right _ _⟩
    · obtain ⟨hle, hge⟩ := ih h
      exact ⟨hmove.line_le.trans hle, hge.trans hmove.le_line⟩

theorem pairwise_warned (c : Cursor) : c.warned.Pairwise (· < ·) := by
  induction c using Cursor.items.induct with
  | case1 c hc =>
    rw [warned_of_none hc]
    exact .nil
  | case2 c i d hc _ ih =>
    rw [warned_of_some hc]
    cases i with
    | bound b => exact ih
    | malformed line =>
      obtain ⟨rfl, hlater⟩ := next?_malformed hc
      refine List.pairwise_cons.2 ⟨fun n hn => ?_, ih⟩
      have hrest : d.rest ≠ [] := fun he => by
        rw [warned_of_none (next?_nil he)] at hn
        cases hn
      exact Nat.lt_of_lt_of_le (hlater hrest) (mem_warned hn).1

theorem blank_of_next?_none (h : c.next? = none) : c.rest.all isBlank = true := by
  have hdrop : c.rest.dropWhile isBlank = [] := by
    unfold next? at h
    split at h
    · next he => exact List.isEmpty_iff.1 he
    · split at h <;> cases h
  exact List.all_eq_true.2 (List.dropWhile_eq_nil_iff.1 hdrop)

theorem cut_of_next?_some {i : Item} (h : c.next? = some (i, d)) :
    ∃ piece, piece ≠ [] ∧ c.rest = piece ++ d.rest := by
  obtain ⟨piece, hp⟩ := next?_suffix h
  refine ⟨piece, fun he => ?_, hp.symm⟩
  have hlt := next?_lt h
  rw [← hp, he] at hlt
  exact Nat.lt_irrefl _ hlt

/-- With input left a step takes some of it, be it white space that nothing follows. -/
theorem step_takes (h : c.rest ≠ []) : ∃ piece rest, piece ≠ [] ∧ c.rest = piece ++ rest ∧
    (c.next? = none ∧ piece.all isBlank = true ∧ rest = [] ∨
      ∃ i line, c.next? = some (i, ⟨rest, line⟩)) := by
  cases hnext : c.next? with
  | none =>
    exact ⟨c.rest, [], h, (List.append_nil _).symm, .inl ⟨rfl, blank_of_next?_none hnext, rfl⟩⟩
  | some r =>
    obtain ⟨i, d⟩ := r
    obtain ⟨piece, hp, hcut⟩ := cut_of_next?_some hnext
    exact ⟨piece, d.rest, hp, hcut, .inr ⟨i, d.line, rfl⟩⟩

/-- The places at which the reader stands before each statement, from `c` until only white space is
left. Every statement takes a piece of the text. -/
inductive Steps : Cursor → List Cursor → Prop where
  | done {c : Cursor} (h : c.next? = none) (hblank : c.rest.all isBlank = true) : Steps c []
  | step {c d : Cursor} {i : Item} {piece : List Char} {starts : List Cursor}
    (h : c.next? = some (i, d)) (hp : piece ≠ []) (hcut : c.rest = piece ++ d.rest)
    (hs : Steps d starts) : Steps c (c :: starts)

def fails (c : Cursor) : Bool := !(c.skipWhile isBlank).statement.isOk

theorem exists_steps (c : Cursor) : ∃ starts, Steps c starts := by
  induction c using Cursor.items.induct with
  | case1 c hc => exact ⟨[], .done hc (blank_of_next?_none hc)⟩
  | case2 c i d hc _ ih =>
    obtain ⟨starts, hs⟩ := ih
    obtain ⟨piece, hp, hcut⟩ := cut_of_next?_some hc
    exact ⟨c :: starts, .step hc hp hcut hs⟩

theorem Steps.length_le {starts : List Cursor} (h : Steps c starts) :
    starts.length ≤ c.rest.length := by
  induction h with
  | done => exact Nat.zero_le _
  | step _ hp hcut _ ih =>
    have := List.length_pos_iff.2 hp
    rw [hcut, List.length_append, List.length_cons]
    omega

theorem line?_next? {i : Item} (h : c.next? = some (i, d)) :
    i.line? = if c.fails then some c.line else none := by
  rcases next?_cases h with ⟨b, rfl, he⟩ | ⟨e, rfl, he, -⟩
  · rw [fails, he]
    rfl
  · rw [fails, he]
    rfl

theorem Steps.warned_eq {starts : List Cursor} (h : Steps c starts) :
    c.warned = (starts.filter fails).map line := by
  induction h with
  | done h => exact warned_of_none h
  | step h _ _ _ ih =>
    rw [warned_of_some h, ih, line?_next? h, List.filter_cons]
    split <;> rfl

end Cursor

/-- Reading a text ends, and complains once for each statement that it cannot read: of a line at most
once, from the first line to the last. The store says just that when it is loaded. -/
theorem reading_progresses (text : List Char) :
    (∀ c : Cursor, c.rest ≠ [] → ∃ piece rest, piece ≠ [] ∧ c.rest = piece ++ rest ∧
      (c.next? = none ∧ piece.all isBlank = true ∧ rest = [] ∨
        ∃ i line, c.next? = some (i, ⟨rest, line⟩))) ∧
    (∃ starts, Cursor.Steps ⟨withoutMark text, 1⟩ starts ∧ starts.length ≤ text.length ∧
      malformed text = (starts.filter Cursor.fails).map Cursor.line) ∧
    (malformed text).Pairwise (· < ·) ∧
    (∀ n ∈ malformed text, 1 ≤ n ∧ n ≤ 1 + text.countP isLineEnd) ∧
    (entries text).keys.Nodup ∧
    (∀ k ∈ (entries text).keys, k ≠ "" ∧
      ((∃ x ∈ k.toList, x = '=' ∨ x = '#' ∨ isBlank x = true) →
        '\'' :: k.toList ++ ['\''] <:+: text)) ∧
    ∀ (s : Store) (d : Disk), s.text d = .ok text →
      s.load.on d =
        (.ok (entries text), ⟨d, (malformed text).map fun n => .notice (.malformed n)⟩) := by
  have hmark := withoutMark_suffix text
  refine ⟨fun _ => Cursor.step_takes, ?_, Cursor.pairwise_warned _, fun n hn => ?_,
    nodup_keys_entries text, fun k hk => ?_, fun s d hs => ?_⟩
  · obtain ⟨starts, hsteps⟩ := Cursor.exists_steps ⟨withoutMark text, 1⟩
    exact ⟨starts, hsteps, hsteps.length_le.trans hmark.length_le, hsteps.warned_eq⟩
  · obtain ⟨hle, hge⟩ := Cursor.mem_warned (c := ⟨withoutMark text, 1⟩) hn
    exact ⟨hle, hge.trans (Nat.add_le_add_left (hmark.sublist.countP_le) 1)⟩
  · have hkey := keyOf_entries hk
    refine ⟨fun he => hkey.ne_nil (by rw [he]; rfl), fun ⟨x, hx, hbar⟩ => ?_⟩
    exact hkey.quoted hx (isKeyChar_eq_false hbar)
  · rw [Run.on_eq, Store.out_load]
    simp only [Store.entries, Store.notices, hs, List.nil_append, List.map_map, Function.comp_def]

theorem reading_progresses_unclosed :
    let text := "export =\n'b #'=2\nA='\n".toList
    let s : Store := ⟨⟨.relative, [".env"]⟩⟩
    let d : Disk := ⟨[([".env"], .file (Utf8.encode text))], []⟩
    text ≠ [] ∧ (∃ piece rest, piece ≠ [] ∧ text = piece ++ rest) ∧
      s.text d = .ok text ∧ (∃ x ∈ "b #".toList, x = '=' ∨ x = '#' ∨ isBlank x = true) ∧
      '\'' :: "b #".toList ++ ['\''] <:+: text ∧
      s.load.on d = (.ok [("b #", "2")], ⟨d, [.notice (.malformed 1), .notice (.malformed 3)]⟩) := by
  -- an `export` with no key behind it, a key between quotes, and a quote that stays open
  intro text s d
  have htext : s.text d = .ok text := by decide
  have hentries : entries text = [("b #", "2")] := by decide +kernel
  have hwarned : malformed text = [1, 3] := by decide +kernel
  have hblank : ∃ x ∈ "b #".toList, x = '=' ∨ x = '#' ∨ isBlank x = true :=
    ⟨'#', by decide, by decide⟩
  have hinput : text ≠ [] := by decide
  obtain ⟨hsteps, -, -, -, -, hkeys, hload⟩ := reading_progresses text
  obtain ⟨piece, rest, hpiece, hcut, -⟩ := hsteps ⟨text, 1⟩ hinput
  have hquoted := (hkeys "b #" (by rw [hentries]; decide)).2 hblank
  refine ⟨hinput, ⟨piece, rest, hpiece, hcut⟩, htext, hblank, hquoted, ?_⟩
  rw [hload s d htext, hentries, hwarned]
  rfl

end EnvKeeper.Declarations
