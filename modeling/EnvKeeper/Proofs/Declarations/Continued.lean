import EnvKeeper.Declarations.Parse
import Mathlib.Data.List.TakeWhile

/-! A `.env` text that goes on behind a line. Each part of a statement reads the same with more text
behind it, if that text starts a new line and no quote reaches into it; so the statements of the
whole are those of the two parts. -/

namespace EnvKeeper.Declarations

def HasNoQuote (s : List Char) : Prop := '\'' ∉ s ∧ '"' ∉ s

/-- What may stand behind a text without changing it: nothing, or a line feed and any text. -/
def StartsLine (more : List Char) : Prop := ∀ c, more.head? = some c → c = '\n'

theorem HasNoQuote.of_suffix {s t : List Char} (h : HasNoQuote t) (hs : s <:+ t) : HasNoQuote s :=
  ⟨fun hm => h.1 (hs.subset hm), fun hm => h.2 (hs.subset hm)⟩

section Span

variable {p : Char → Bool} {more : List Char} (hp : p '\n' = false) (hm : StartsLine more)
include hp hm

theorem takeWhile_more_nil : more.takeWhile p = [] ∧ more.dropWhile p = more := by
  cases more with
  | nil => exact ⟨rfl, rfl⟩
  | cons c more =>
    have hc := hm c rfl
    simp [hc, hp]

theorem dropWhile_more (s : List Char) : (s ++ more).dropWhile p = s.dropWhile p ++ more := by
  rw [List.dropWhile_append]
  split
  · next h => rw [List.isEmpty_iff.1 h, (takeWhile_more_nil hp hm).2, List.nil_append]
  · rfl

theorem takeWhile_more (s : List Char) : (s ++ more).takeWhile p = s.takeWhile p := by
  rw [List.takeWhile_append]
  split
  · next h =>
    rw [(takeWhile_more_nil hp hm).1, List.append_nil, (List.takeWhile_prefix p).eq_of_length h]
  · rfl

end Span

theorem StartsLine.head?_append {more : List Char} (hm : StartsLine more) (s : List Char) {c : Char}
    (hc : c ≠ '\n') : (s ++ more).head? = some c ↔ s.head? = some c := by
  cases s with
  | nil =>
    refine ⟨fun h => absurd (hm c h) hc, nofun⟩
  | cons d s => rfl

theorem StartsLine.any_head? {p : Char → Bool} {more : List Char} (hm : StartsLine more)
    (hp : p '\n' = false) (s : List Char) : (s ++ more).head?.any p = s.head?.any p := by
  cases s with
  | nil =>
    cases more with
    | nil => rfl
    | cons e more =>
      rw [hm e rfl]
      exact hp
  | cons e s => rfl

theorem afterStart?_more {word more : List Char} (hw : '\n' ∉ word) (hm : StartsLine more)
    (s : List Char) : afterStart? word (s ++ more) = (afterStart? word s).map (· ++ more) := by
  induction word generalizing s with
  | nil => rfl
  | cons c word ih =>
    obtain ⟨hc, hw⟩ := not_or.1 (mt List.mem_cons.2 hw)
    cases s with
    | nil =>
      cases more with
      | nil => rfl
      | cons d more =>
        have hd := hm d rfl
        simp [afterStart?, hd, Ne.symm hc]
    | cons d s =>
      simp only [List.cons_append, afterStart?]
      split
      · exact ih hw s
      · rfl

section SplitAtQuote

variable {quote : Char}

theorem splitAtQuote_quote (s : List Char) : splitAtQuote quote (quote :: s) = some ([], s) := by
  unfold splitAtQuote
  rw [if_pos rfl]

theorem splitAtQuote_escape (hq : quote ≠ '\\') (d : Char) (s : List Char) :
    splitAtQuote quote ('\\' :: d :: s) =
      (splitAtQuote quote s).map fun (body, rest) => ('\\' :: d :: body, rest) := by
  rw [splitAtQuote, if_neg hq.symm, if_pos rfl]

theorem splitAtQuote_plain {c : Char} (hq : c ≠ quote) (hc : c ≠ '\\') (s : List Char) :
    splitAtQuote quote (c :: s) =
      (splitAtQuote quote s).map fun (body, rest) => (c :: body, rest) := by
  rw [splitAtQuote.eq_def]
  simp only [if_neg hq, if_neg hc]

theorem splitAtQuote_eq_none {s : List Char} (h : quote ∉ s) : splitAtQuote quote s = none := by
  cases hs : splitAtQuote quote s with
  | none => rfl
  | some p => exact absurd (by simp [splitAtQuote_append hs]) h

theorem splitAtQuote_more_some {s body rest : List Char} (more : List Char)
    (h : splitAtQuote quote s = some (body, rest)) :
    splitAtQuote quote (s ++ more) = some (body, rest ++ more) := by
  fun_induction splitAtQuote quote s generalizing body rest with
  | case1 => cases h
  | case2 s =>
    cases h
    exact splitAtQuote_quote _
  | case3 => cases h
  | case4 d s hq ih =>
    obtain ⟨⟨b, r⟩, hb, he⟩ := Option.map_eq_some_iff.1 h
    cases he
    rw [List.cons_append, List.cons_append, splitAtQuote_escape (Ne.symm hq), ih hb]
    rfl
  | case5 c s hq hc ih =>
    obtain ⟨⟨b, r⟩, hb, he⟩ := Option.map_eq_some_iff.1 h
    cases he
    rw [List.cons_append, splitAtQuote_plain hq hc, ih hb]
    rfl

theorem splitAtQuote_more_none {s more : List Char} (hq : quote ∉ more)
    (h : splitAtQuote quote s = none) : splitAtQuote quote (s ++ more) = none := by
  fun_induction splitAtQuote quote s with
  | case1 => exact splitAtQuote_eq_none hq
  | case2 => cases h
  | case3 hc =>
    -- a backslash at the end takes the first character of what follows
    cases more with
    | nil => simp [splitAtQuote, hc]
    | cons d more =>
      rw [List.singleton_append, splitAtQuote_escape (Ne.symm hc),
        splitAtQuote_eq_none fun hm => hq (List.mem_cons_of_mem _ hm)]
      rfl
  | case4 d s hc ih =>
    rw [List.cons_append, List.cons_append, splitAtQuote_escape (Ne.symm hc),
      ih (Option.map_eq_none_iff.1 h)]
    rfl
  | case5 c s hc hb ih =>
    rw [List.cons_append, splitAtQuote_plain hc hb, ih (Option.map_eq_none_iff.1 h)]
    rfl

end SplitAtQuote

/-- A quoted key that ends in the first part is cut there. -/
theorem span_more_of_mem {p : Char → Bool} {s : List Char} (more : List Char)
    (h : s.dropWhile p ≠ []) :
    (s ++ more).takeWhile p = s.takeWhile p ∧ (s ++ more).dropWhile p = s.dropWhile p ++ more := by
  have hl : (s.takeWhile p).length ≠ s.length := by
    intro he
    have := congrArg List.length (List.takeWhile_append_dropWhile (p := p) (l := s))
    rw [List.length_append, he] at this
    exact h (List.eq_nil_of_length_eq_zero (by omega))
  rw [List.takeWhile_append, if_neg hl, List.dropWhile_append, if_neg (by simpa using h)]
  exact ⟨rfl, rfl⟩

/-- Two readings of which the second has `more` behind what the first leaves. -/
def Agree {α : Type} (more : List Char) :
    Except Cursor (α × Cursor) → Except Cursor (α × Cursor) → Prop
  | .ok (a, c), .ok (b, d) => a = b ∧ d.rest = c.rest ++ more
  | .error c, .error d => d.rest = c.rest ++ more
  | _, _ => False

theorem Agree.ok {α : Type} {more : List Char} {x y : Except Cursor (α × Cursor)} {a : α}
    {c : Cursor} (h : Agree more x y) (hx : x = .ok (a, c)) :
    ∃ d, y = .ok (a, d) ∧ d.rest = c.rest ++ more := by
  subst hx
  match y, h with
  | .ok (_, d), ⟨rfl, hd⟩ => exact ⟨d, rfl, hd⟩

theorem Agree.error {α : Type} {more : List Char} {x y : Except Cursor (α × Cursor)} {c : Cursor}
    (h : Agree more x y) (hx : x = .error c) : ∃ d, y = .error d ∧ d.rest = c.rest ++ more := by
  subst hx
  match y, h with
  | .error d, hd => exact ⟨d, rfl, hd⟩

theorem Agree.map {α β : Type} {more : List Char} {x y : Except Cursor (α × Cursor)}
    (f : α → β) (h : Agree more x y) :
    Agree more (x.map fun (a, c) => (f a, c)) (y.map fun (a, c) => (f a, c)) :=
  match x, y, h with
  | .ok _, .ok _, h => ⟨congrArg f h.1, h.2⟩
  | .error _, .error _, h => h

/-- The same up to blanks that come first: a line end may be read from either side of the cut. -/
def Joins (more : List Char) (c d : Cursor) : Prop :=
  d.rest.dropWhile isBlank = (c.rest ++ more).dropWhile isBlank

theorem Joins.of_rest {more : List Char} {c d : Cursor} (h : d.rest = c.rest ++ more) :
    Joins more c d := by
  rw [Joins, h]

namespace Cursor

variable {more : List Char} {c d : Cursor}

theorem key_unclosed {s : List Char} (hs : c.rest = '\'' :: s)
    (hd : s.dropWhile (· != '\'') = []) : c.key = .error c := by
  simp only [key, hs, hd]
  cases s.takeWhile (· != '\'') <;> rfl

theorem quotedValue_more {quote : Char} {known : Char → Option Char} {s : List Char}
    (hs : c.rest = quote :: s) (hq : quote ∉ more ∨ quote ∉ c.rest)
    (h : d.rest = c.rest ++ more) :
    Agree more (c.quotedValue quote known s) (d.quotedValue quote known (s ++ more)) := by
  have hmore : quote ∉ more := hq.resolve_right fun hn => hn (by simp [hs])
  unfold quotedValue
  cases hp : splitAtQuote quote s with
  | none =>
    rw [splitAtQuote_more_none hmore hp]
    exact h
  | some p =>
    rw [splitAtQuote_more_some more hp]
    exact ⟨rfl, rfl⟩

/-- Behind `=` white space is skipped; a comment may follow it at once. -/
theorem value_assigned {s : List Char} (hs : c.rest = '=' :: s) :
    c.value =
      if s.head?.any isInline && (skipWhile isInline ⟨s, c.line⟩).rest.head? == some '#' then
        .ok (some [], skipWhile isInline ⟨s, c.line⟩)
      else (skipWhile isInline ⟨s, c.line⟩).plainValue.map fun (v, e) => (some v, e) := by
  simp only [value, hs]
  split
  · rfl
  · cases (skipWhile isInline ⟨s, c.line⟩).plainValue <;> rfl

theorem lineEnd_cons {x : Char} {s : List Char} (hs : c.rest.dropWhile isInline = x :: s)
    (hn : x = '\r' → s.head? ≠ some '\n') :
    c.lineEnd = if isLineEnd x then .ok ⟨s, c.line + 1⟩ else .error c := by
  unfold lineEnd
  rw [hs]
  split
  · next he => cases he
  · next s he =>
    cases he
    exact absurd rfl (hn rfl)
  · next he => cases he; rfl

theorem statement_suffix {b : Binding} (h : c.statement = .ok (b, d)) : d.rest <:+ c.rest := by
  obtain ⟨e, f, hk, hv, hl⟩ := statement_ok h
  have hkey := (key_suffix hk).trans (skipExport_suffix c)
  have hvalue := (value_suffix hv).trans (skipWhile_suffix isInline e)
  exact ((lineEnd_suffix hl).trans (skipComment_suffix f)).trans (hvalue.trans hkey)

/-- A step is a statement that can be read, or one that cannot, with the rest of the line it fails in. -/
theorem next?_cases {i : Item} (h : c.next? = some (i, d)) :
    (∃ b, i = .bound b ∧ (c.skipWhile isBlank).statement = .ok (b, d)) ∨
      ∃ e, i = .malformed c.line ∧ (c.skipWhile isBlank).statement = .error e ∧ d = e.skipLine := by
  unfold next? at h
  split at h
  · cases h
  · split at h
    · next b e he =>
      cases h
      exact .inl ⟨b, rfl, he⟩
    · next e he =>
      cases h
      exact .inr ⟨e, rfl, he, rfl⟩

theorem next?_suffix {i : Item} (h : c.next? = some (i, d)) : d.rest <:+ c.rest := by
  have hs := skipWhile_suffix isBlank c
  rcases next?_cases h with ⟨b, -, he⟩ | ⟨e, -, he, rfl⟩
  · exact (statement_suffix he).trans hs
  · exact ((skipLine_suffix e).trans (statement_error he)).trans hs

section

variable (hm : StartsLine more)
include hm

theorem skipWhile_more {p : Char → Bool} (hp : p '\n' = false) (h : d.rest = c.rest ++ more) :
    (d.skipWhile p).rest = (c.skipWhile p).rest ++ more := by
  rw [skipWhile_rest, skipWhile_rest, h, dropWhile_more hp hm]

theorem skipExport_more (h : d.rest = c.rest ++ more) :
    d.skipExport.rest = c.skipExport.rest ++ more := by
  have hw : '\n' ∉ "export".toList := by decide
  unfold skipExport
  rw [h, afterStart?_more hw hm]
  cases afterStart? "export".toList c.rest with
  | none => exact h
  | some s =>
    simp only [Option.map_some, hm.any_head? (by decide : isInline '\n' = false)]
    split
    · exact skipWhile_more hm (by decide) rfl
    · exact h

theorem key_more (hq : HasNoQuote c.rest ∨ HasNoQuote more) (h : d.rest = c.rest ++ more) :
    Agree more c.key d.key := by
  by_cases hh : c.rest.head? = some '#'
  · obtain ⟨s, hs⟩ := List.head?_eq_some_iff.1 hh
    simp only [key, h, hs, List.cons_append]
    exact ⟨rfl, by rw [h, hs]⟩
  by_cases hs : c.rest.head? = some '\''
  · obtain ⟨s, hs⟩ := List.head?_eq_some_iff.1 hs
    have hmore : '\'' ∉ more := hq.elim (fun hc => absurd (by simp [hs]) hc.1) And.left
    have hs' : d.rest = '\'' :: (s ++ more) := by rw [h, hs, List.cons_append]
    cases hd : s.dropWhile (· != '\'') with
    | nil =>
      have hall : ∀ x ∈ s ++ more, (x != '\'') = true := by
        intro x hx
        rcases List.mem_append.1 hx with hx | hx
        · exact List.dropWhile_eq_nil_iff.1 hd x hx
        · exact bne_iff_ne.2 fun he => hmore (he ▸ hx)
      rw [key_unclosed hs hd, key_unclosed hs' (List.dropWhile_eq_nil_iff.2 hall)]
      exact h
    | cons q rest =>
      obtain ⟨ht, hr⟩ := span_more_of_mem more (hd ▸ List.cons_ne_nil q rest)
      simp only [key, hs, hs', ht, hr, hd]
      cases s.takeWhile (· != '\'') with
      | nil => exact h
      | cons k key => exact ⟨rfl, rfl⟩
  · have hkey (e : Cursor) (h1 : e.rest.head? ≠ some '#') (h2 : e.rest.head? ≠ some '\'') :
        e.key = if (e.rest.takeWhile isKeyChar).isEmpty then .error e
          else .ok (some (e.rest.takeWhile isKeyChar),
            e.past (e.rest.takeWhile isKeyChar) (e.rest.dropWhile isKeyChar)) := by
      unfold key
      split
      · next s he => exact absurd (by rw [he]; rfl) h1
      · next s he => exact absurd (by rw [he]; rfl) h2
      · rfl
    have hd (x : Char) (hx : x ≠ '\n') : d.rest.head? = some x ↔ c.rest.head? = some x := by
      rw [h, hm.head?_append _ hx]
    rw [hkey c hh hs, hkey d (mt (hd _ (by decide)).1 hh) (mt (hd _ (by decide)).1 hs), h,
      takeWhile_more (by decide) hm, dropWhile_more (by decide) hm]
    split
    · exact h
    · exact ⟨rfl, rfl⟩

theorem plainValue_more (hq : HasNoQuote c.rest ∨ HasNoQuote more) (h : d.rest = c.rest ++ more) :
    Agree more c.plainValue d.plainValue := by
  by_cases h1 : c.rest.head? = some '\''
  · obtain ⟨s, hs⟩ := List.head?_eq_some_iff.1 h1
    simp only [plainValue, h, hs, List.cons_append]
    exact quotedValue_more hs (hq.symm.imp And.left And.left) h
  by_cases h2 : c.rest.head? = some '"'
  · obtain ⟨s, hs⟩ := List.head?_eq_some_iff.1 h2
    simp only [plainValue, h, hs, List.cons_append]
    exact quotedValue_more hs (hq.symm.imp And.right And.right) h
  · have hv (e : Cursor) (h1 : e.rest.head? ≠ some '\'') (h2 : e.rest.head? ≠ some '"') :
        e.plainValue = .ok (dropEnd isBlank (beforeComment (e.rest.takeWhile (!isLineEnd ·))),
          e.past (e.rest.takeWhile (!isLineEnd ·)) (e.rest.dropWhile (!isLineEnd ·))) := by
      unfold plainValue
      split
      · next s he => exact absurd (by rw [he]; rfl) h1
      · next s he => exact absurd (by rw [he]; rfl) h2
      · rfl
    have hd (x : Char) (hx : x ≠ '\n') : d.rest.head? = some x ↔ c.rest.head? = some x := by
      rw [h, hm.head?_append _ hx]
    rw [hv c h1 h2, hv d (mt (hd _ (by decide)).1 h1) (mt (hd _ (by decide)).1 h2), h,
      takeWhile_more (by decide) hm, dropWhile_more (by decide) hm]
    exact ⟨rfl, rfl⟩

theorem value_more (hq : HasNoQuote c.rest ∨ HasNoQuote more) (h : d.rest = c.rest ++ more) :
    Agree more c.value d.value := by
  by_cases he : c.rest.head? = some '='
  · obtain ⟨s, hs⟩ := List.head?_eq_some_iff.1 he
    have hs' : d.rest = '=' :: (s ++ more) := by rw [h, hs, List.cons_append]
    have hw := skipWhile_more (p := isInline) (c := ⟨s, c.line⟩) (d := ⟨s ++ more, d.line⟩) hm
      (by decide) rfl
    have hc := hm.head?_append (skipWhile isInline ⟨s, c.line⟩).rest (by decide : '#' ≠ '\n')
    have hb : ((skipWhile isInline ⟨s ++ more, d.line⟩).rest.head? == some '#') =
        ((skipWhile isInline ⟨s, c.line⟩).rest.head? == some '#') := by
      rw [Bool.eq_iff_iff, beq_iff_eq, beq_iff_eq, hw, hc]
    rw [value_assigned hs, value_assigned hs', hm.any_head? (by decide), hb]
    split
    · exact ⟨rfl, hw⟩
    · have hq' := hq.imp_left fun hq => hq.of_suffix
        ((skipWhile_suffix isInline ⟨s, c.line⟩).trans (hs ▸ List.suffix_cons '=' s))
      exact (plainValue_more hm hq' hw).map some
  · have hd : d.rest.head? ≠ some '=' := by
      rw [h]
      exact mt (hm.head?_append _ (by decide)).1 he
    have hv (e : Cursor) (h1 : e.rest.head? ≠ some '=') : e.value = .ok (none, e) := by
      unfold value
      split
      · next s he => exact absurd (by rw [he]; rfl) h1
      · rfl
    rw [hv c he, hv d hd]
    exact ⟨rfl, h⟩

theorem skipComment_more (h : d.rest = c.rest ++ more) :
    d.skipComment.rest = c.skipComment.rest ++ more := by
  unfold skipComment
  rw [h, dropWhile_more (by decide) hm]
  by_cases hh : (c.rest.dropWhile isInline).head? = some '#'
  · obtain ⟨s, hs⟩ := List.head?_eq_some_iff.1 hh
    simp only [hs, List.cons_append]
    exact dropWhile_more (by decide) hm s
  · have hd := mt (hm.head?_append (c.rest.dropWhile isInline) (by decide : '#' ≠ '\n')).1 hh
    split
    · next s hs => exact absurd (by rw [hs]; rfl) hd
    · split
      · next s hs => exact absurd (by rw [hs]; rfl) hh
      · exact h

theorem lineEnd_more (h : d.rest = c.rest ++ more) :
    (∀ e, c.lineEnd = .ok e → ∃ f, d.lineEnd = .ok f ∧ Joins more e f) ∧
      ∀ e, c.lineEnd = .error e → ∃ f, d.lineEnd = .error f ∧ f.rest = e.rest ++ more := by
  have hd : d.rest.dropWhile isInline = c.rest.dropWhile isInline ++ more := by
    rw [h, dropWhile_more (by decide) hm]
  cases hs : c.rest.dropWhile isInline with
  | nil =>
    rw [hs, List.nil_append] at hd
    have hc : c.lineEnd = .ok ⟨[], c.line⟩ := by rw [lineEnd, hs]
    refine ⟨fun e he => ?_, by simp [hc]⟩
    rw [hc] at he
    cases he
    cases more with
    | nil => exact ⟨⟨[], d.line⟩, by rw [lineEnd, hd], rfl⟩
    | cons x more =>
      obtain rfl := hm x rfl
      exact ⟨⟨more, d.line + 1⟩, lineEnd_cons hd (fun hx => nomatch hx), rfl⟩
  | cons x s =>
    rw [hs, List.cons_append] at hd
    -- a CR that ends the first part takes the line feed behind it along
    by_cases hcr : x = '\r' ∧ s = []
    · obtain ⟨rfl, rfl⟩ := hcr
      have hc : c.lineEnd = .ok ⟨[], c.line + 1⟩ := lineEnd_cons hs (fun _ hx => nomatch hx)
      refine ⟨fun e he => ?_, by simp [hc]⟩
      rw [hc] at he
      cases he
      cases more with
      | nil => exact ⟨⟨[], d.line + 1⟩, lineEnd_cons hd (fun _ hx => nomatch hx), rfl⟩
      | cons y more =>
        obtain rfl := hm y rfl
        exact ⟨⟨more, d.line + 1⟩, by rw [lineEnd, hd]; rfl, rfl⟩
    by_cases hlf : x = '\r' ∧ s.head? = some '\n'
    · obtain ⟨rfl, hlf⟩ := hlf
      obtain ⟨s, rfl⟩ := List.head?_eq_some_iff.1 hlf
      have hc : c.lineEnd = .ok ⟨s, c.line + 1⟩ := by rw [lineEnd, hs]; rfl
      refine ⟨fun e he => ?_, by simp [hc]⟩
      rw [hc] at he
      cases he
      exact ⟨⟨s ++ more, d.line + 1⟩, by rw [lineEnd, hd]; rfl, rfl⟩
    · have hn : x = '\r' → (s ++ more).head? ≠ some '\n' := by
        intro hx
        cases s with
        | nil => exact absurd ⟨hx, rfl⟩ hcr
        | cons y s => exact fun he => hlf ⟨hx, he⟩
      rw [lineEnd_cons hs fun hx he => hlf ⟨hx, he⟩, lineEnd_cons hd hn]
      split
      · refine ⟨fun e he => ?_, nofun⟩
        cases he
        exact ⟨_, rfl, rfl⟩
      · refine ⟨nofun, fun e he => ?_⟩
        cases he
        exact ⟨_, rfl, h⟩

theorem skipLine_more (h : d.rest = c.rest ++ more) : Joins more c.skipLine d.skipLine := by
  rw [Joins, skipLine_rest, skipLine_rest, h, dropWhile_more (by decide) hm]
  cases c.rest.dropWhile (!isLineEnd ·) with
  | nil =>
    cases more with
    | nil => rfl
    | cons x more =>
      obtain rfl := hm x rfl
      rfl
  | cons x s => rfl

theorem statement_more (hq : HasNoQuote c.rest ∨ HasNoQuote more) (h : d.rest = c.rest ++ more) :
    (∀ b e, c.statement = .ok (b, e) → ∃ f, d.statement = .ok (b, f) ∧ Joins more e f) ∧
      ∀ e, c.statement = .error e → ∃ f, d.statement = .error f ∧ f.rest = e.rest ++ more := by
  have hx := skipExport_more hm h
  have hq := hq.imp_left fun hq => hq.of_suffix (skipExport_suffix c)
  have hkey := key_more hm hq hx
  cases hk : c.skipExport.key with
  | error e =>
    obtain ⟨f, hf, hr⟩ := hkey.error hk
    simp [statement, bind, Except.bind, hk, hf, hr]
  | ok r =>
    obtain ⟨k, e⟩ := r
    obtain ⟨f, hf, hr⟩ := hkey.ok hk
    have hw := skipWhile_more hm (by decide : isInline '\n' = false) hr
    have hq := hq.imp_left fun hq =>
      hq.of_suffix ((skipWhile_suffix isInline e).trans (key_suffix hk))
    have hvalue := value_more hm hq hw
    cases hv : (e.skipWhile isInline).value with
    | error g =>
      obtain ⟨g', hg, hr⟩ := hvalue.error hv
      simp [statement, bind, Except.bind, hk, hf, hv, hg, hr]
    | ok r =>
      obtain ⟨v, g⟩ := r
      obtain ⟨g', hg, hr⟩ := hvalue.ok hv
      obtain ⟨hok, herr⟩ := lineEnd_more hm (skipComment_more hm hr)
      cases hl : g.skipComment.lineEnd with
      | error i =>
        obtain ⟨i', hi, hr⟩ := herr i hl
        simp [statement, bind, Except.bind, hk, hf, hv, hg, hl, hi, hr]
      | ok i =>
        obtain ⟨i', hi, hj⟩ := hok i hl
        simp only [statement, bind, Except.bind, pure, Except.pure, hk, hf, hv, hg, hl, hi]
        refine ⟨fun b e he => ?_, nofun⟩
        cases he
        exact ⟨i', rfl, hj⟩

/-- A step from the same place, more text standing behind: the same entry, and the same place again.
Without a step only blanks are left of the first part. -/
theorem next?_more (hq : HasNoQuote c.rest ∨ HasNoQuote more) (h : Joins more c d) :
    (c.next? = none → Joins [] ⟨more, 0⟩ d) ∧
      ∀ i e, c.next? = some (i, e) → ∃ j f, d.next? = some (j, f) ∧ j.entry? = i.entry? ∧
        Joins more e f := by
  have hd : (d.skipWhile isBlank).rest = (c.rest ++ more).dropWhile isBlank := h
  unfold next?
  by_cases hb : c.rest.dropWhile isBlank = []
  · have hn : (c.skipWhile isBlank).rest.isEmpty = true := List.isEmpty_iff.2 hb
    rw [if_pos hn]
    refine ⟨fun _ => ?_, nofun⟩
    rw [Joins, List.append_nil]
    exact h.trans (by rw [List.dropWhile_append, hb]; rfl)
  · have hn : ¬ (c.skipWhile isBlank).rest.isEmpty = true := mt List.isEmpty_iff.1 hb
    have hr : (d.skipWhile isBlank).rest = (c.skipWhile isBlank).rest ++ more := by
      rw [hd, (span_more_of_mem more hb).2]
      rfl
    have hn' : ¬ (d.skipWhile isBlank).rest.isEmpty = true := by
      rw [hr]
      simp only [List.isEmpty_iff, List.append_eq_nil_iff] at hn ⊢
      exact fun he => hn he.1
    rw [if_neg hn, if_neg hn']
    have hq := hq.imp_left fun hq => hq.of_suffix (skipWhile_suffix isBlank c)
    obtain ⟨hok, herr⟩ := statement_more hm hq hr
    cases hs : (c.skipWhile isBlank).statement with
    | error e =>
      obtain ⟨f, hf, hr⟩ := herr e hs
      rw [hf]
      refine ⟨nofun, fun i e' he => ?_⟩
      cases he
      exact ⟨_, _, rfl, rfl, skipLine_more hm hr⟩
    | ok r =>
      obtain ⟨b, e⟩ := r
      obtain ⟨f, hf, hj⟩ := hok b e hs
      rw [hf]
      refine ⟨nofun, fun i e' he => ?_⟩
      cases he
      exact ⟨_, _, rfl, rfl, hj⟩

end

end Cursor
end EnvKeeper.Declarations
