import EnvKeeper.Proofs.Declarations.Block

/-! How values are written down so that they are read back: between single quotes, with a backslash
before each backslash and each single quote. Any text can be stored in this way. Its quotes, line ends
and look-alikes of statements stay inside the value, and the next statement starts behind it. -/

namespace EnvKeeper.Declarations

structure Remark where
  text : List Char
  inLine : ∀ c ∈ text, isLineEnd c = false

def Remark.ofText (text : List Char) (h : text.all (!isLineEnd ·) = true) : Remark :=
  ⟨text, by simpa using h⟩

/-- Lines without a statement: white space and perhaps a comment. -/
structure Gap where
  blanks : List Char
  remark : Option Remark
  blank : ∀ c ∈ blanks, isBlank c = true

structure Assignment where
  key : String
  value : String
  exported : Bool
  remark : Option Remark
  isName : IsName key.toList

inductive Line where
  | gap (g : Gap)
  | assignment (a : Assignment)

def quoted (v : List Char) : List Char :=
  v.flatMap fun c => if c = '\\' ∨ c = '\'' then ['\\', c] else [c]

def behind (r : Option Remark) : List Char := r.elim [] fun r => " #".toList ++ r.text

def Gap.text (g : Gap) : List Char :=
  g.blanks ++ (g.remark.elim [] fun r => '#' :: r.text) ++ ['\n']

def Assignment.text (a : Assignment) : List Char :=
  (if a.exported then "export ".toList else []) ++ a.key.toList ++ "='".toList ++
    quoted a.value.toList ++ ['\''] ++ behind a.remark ++ ['\n']

namespace Line

def text : Line → List Char
  | gap g => g.text
  | assignment a => a.text

def entry? : Line → Option (String × String)
  | gap _ => none
  | assignment a => some (a.key, a.value)

end Line

def written (lines : List Line) : List Char := lines.flatMap Line.text

theorem quoted_escaped {c : Char} (h : c = '\\' ∨ c = '\'') (v : List Char) :
    quoted (c :: v) = '\\' :: c :: quoted v := by
  simp [quoted, h]

theorem quoted_plain {c : Char} (h : ¬ (c = '\\' ∨ c = '\'')) (v : List Char) :
    quoted (c :: v) = c :: quoted v := by
  simp [quoted, h]

theorem unescape_plain {known : Char → Option Char} {c : Char} (h : c ≠ '\\') (s : List Char) :
    unescape known (c :: s) = c :: unescape known s := by
  cases s with
  | nil => rfl
  | cons d s => rw [unescape, if_neg h]

theorem unescape_quoted (v : List Char) : unescape inSingle (quoted v) = v := by
  induction v with
  | nil => rfl
  | cons c v ih =>
    by_cases h : c = '\\' ∨ c = '\''
    · rw [quoted_escaped h, unescape, if_pos rfl, inSingle, if_pos h, ih]
    · rw [quoted_plain h, unescape_plain fun he => h (.inl he), ih]

/-- No quote of the value is taken for the closing one. -/
theorem splitAtQuote_quoted (v s : List Char) :
    splitAtQuote '\'' (quoted v ++ '\'' :: s) = some (quoted v, s) := by
  induction v with
  | nil => exact splitAtQuote_quote s
  | cons c v ih =>
    by_cases h : c = '\\' ∨ c = '\''
    · rw [quoted_escaped h, List.cons_append, List.cons_append, splitAtQuote_escape (by decide), ih]
      rfl
    · obtain ⟨hc, hq⟩ := not_or.1 h
      rw [quoted_plain h, List.cons_append, splitAtQuote_plain hq hc, ih]
      rfl

theorem Assignment.text_append (a : Assignment) (s : List Char) :
    a.text ++ s = (if a.exported then "export ".toList else []) ++ (a.key.toList ++ ("='".toList ++
      (quoted a.value.toList ++ '\'' :: (behind a.remark ++ '\n' :: s)))) := by
  simp only [Assignment.text, List.append_assoc, List.cons_append, List.nil_append]

theorem Assignment.text_starts (a : Assignment) (s : List Char) :
    ∃ c t, a.text ++ s = c :: t ∧ isNameChar c = true := by
  rw [a.text_append]
  cases a.exported with
  | true => exact ⟨'e', _, rfl, by decide⟩
  | false =>
    obtain ⟨c, t, ht⟩ := List.exists_cons_of_ne_nil a.isName.1
    exact ⟨c, _, by rw [ht]; rfl, a.isName.2 c (ht ▸ List.mem_cons_self)⟩

namespace Cursor

variable {c d e f : Cursor} {line : Nat}

theorem statement_of_parts {k v : Option (List Char)} (hkey : c.skipExport.key = .ok (k, e))
    (hvalue : (e.skipWhile isInline).value = .ok (v, f)) (hend : f.skipComment.lineEnd = .ok d) :
    c.statement = .ok (⟨k, v⟩, d) := by
  simp [statement, bind, Except.bind, pure, Except.pure, hkey, hvalue, hend]

theorem skipWhile_of_head {p : Char → Bool} {x : Char} (hx : p x = false) (s : List Char) :
    skipWhile p ⟨x :: s, line⟩ = ⟨x :: s, line⟩ := by
  simp [skipWhile, past, hx, lineEnds]

theorem skipExport_exported {n : List Char} (hn : IsName n) (s : List Char) :
    skipExport ⟨"export ".toList ++ (n ++ s), line⟩ = ⟨n ++ s, line⟩ := by
  have hstart : afterStart? "export".toList ("export ".toList ++ (n ++ s)) = some (' ' :: (n ++ s)) :=
    afterStart?_eq_some.2 rfl
  have hblank : ∀ c, (n ++ s).head? = some c → isInline c = false := fun c hc => by
    simp [isInline, isBlank_head? hn c hc]
  obtain ⟨ht, hd⟩ := span_append (l := [' ']) (List.forall_mem_singleton.2 (by decide)) hblank
  have hskip : skipWhile isInline ⟨' ' :: (n ++ s), line⟩ = ⟨n ++ s, line⟩ := by
    rw [List.singleton_append] at ht hd
    rw [skipWhile, ht, hd]
    rfl
  rw [skipExport]
  simp only [hstart]
  exact (if_pos rfl).trans hskip

theorem skipComment_remark {b : List Char} (hb : ∀ c ∈ b, isInline c = true) (r : Remark)
    (s : List Char) (line : Nat) :
    skipComment ⟨b ++ '#' :: (r.text ++ '\n' :: s), line⟩ = ⟨'\n' :: s, line⟩ := by
  obtain ⟨-, hblanks⟩ := span_append (r := '#' :: (r.text ++ '\n' :: s)) hb
    fun c hc => by cases hc; decide
  obtain ⟨-, hremark⟩ := span_append (p := (!isLineEnd ·)) (l := r.text)
    (r := '\n' :: s) (fun c hc => by simp [r.inLine c hc]) fun c hc => by cases hc; decide
  rw [skipComment]
  simp only [hblanks, hremark]

/-- Behind the closing quote the line may end at once or with a comment. -/
theorem lineEnd_remark (r : Option Remark) (s : List Char) :
    (skipComment ⟨behind r ++ '\n' :: s, line⟩).lineEnd =
      .ok ⟨s, line + 1⟩ := by
  cases r with
  | none => rfl
  | some r =>
    have hskip := skipComment_remark (b := [' ']) (List.forall_mem_singleton.2 (by decide)) r s line
    exact (congrArg lineEnd hskip).trans rfl

theorem value_quoted (v s : List Char) (line : Nat) :
    ∃ l, value ⟨"='".toList ++ (quoted v ++ '\'' :: s), line⟩ = .ok (some v, ⟨s, l⟩) := by
  have hplain : plainValue ⟨'\'' :: (quoted v ++ '\'' :: s), line⟩ =
      .ok (v, past ⟨'\'' :: (quoted v ++ '\'' :: s), line⟩ ('\'' :: quoted v ++ ['\'']) s) := by
    simp only [plainValue, quotedValue, splitAtQuote_quoted, unescape_quoted]
  have hskip : skipWhile isInline ⟨'\'' :: (quoted v ++ '\'' :: s), line⟩ =
      ⟨'\'' :: (quoted v ++ '\'' :: s), line⟩ := skipWhile_of_head (by decide) _
  have hvalue := value_assigned (c := ⟨"='".toList ++ (quoted v ++ '\'' :: s), line⟩)
    (s := '\'' :: (quoted v ++ '\'' :: s)) rfl
  rw [hskip, hplain] at hvalue
  exact ⟨_, hvalue.trans (if_neg (by simp))⟩

theorem statement_assignment (a : Assignment) (s : List Char) :
    ∃ l, statement ⟨a.text ++ s, line⟩ =
      .ok (⟨some a.key.toList, some a.value.toList⟩, ⟨s, l⟩) := by
  have hstart : skipExport ⟨a.text ++ s, line⟩ =
      ⟨a.key.toList ++ ("='".toList ++ (quoted a.value.toList ++
        '\'' :: (behind a.remark ++ '\n' :: s))), line⟩ := by
    rw [Assignment.text_append]
    cases a.exported with
    | true => exact skipExport_exported a.isName _
    | false => exact skipExport_name a.isName _ line
  obtain ⟨l₁, hkey⟩ := key_name a.isName ('\'' :: (quoted a.value.toList ++
    '\'' :: (behind a.remark ++ '\n' :: s))) line
  obtain ⟨l₂, hvalue⟩ := value_quoted a.value.toList (behind a.remark ++ '\n' :: s) l₁
  refine ⟨l₂ + 1, statement_of_parts (hstart ▸ hkey) ?_ (lineEnd_remark a.remark s)⟩
  rw [skipWhile_of_head (by decide)]
  exact hvalue

theorem statement_remark (r : Remark) (s : List Char) :
    statement ⟨'#' :: (r.text ++ '\n' :: s), line⟩ = .ok (⟨none, none⟩, ⟨s, line + 1⟩) := by
  have hskip := skipComment_remark (b := []) nofun r s line
  refine statement_of_parts (e := ⟨'#' :: (r.text ++ '\n' :: s), line⟩) rfl ?_
    ((congrArg lineEnd hskip).trans rfl)
  rw [skipWhile_of_head (by decide)]
  rfl

theorem next?_statement {s rest : List Char} {b : Binding} (hs : s ≠ [])
    (hc : c.rest.dropWhile isBlank = s)
    (h : ∀ line, ∃ l, statement ⟨s, line⟩ = .ok (b, ⟨rest, l⟩)) :
    ∃ l, c.next? = some (.bound b, ⟨rest, l⟩) := by
  obtain ⟨l, hl⟩ := h (c.skipWhile isBlank).line
  have hskip : c.skipWhile isBlank = ⟨s, (c.skipWhile isBlank).line⟩ := by
    rw [← hc]
    rfl
  refine ⟨l, ?_⟩
  rw [next?, hskip, hl, if_neg (mt List.isEmpty_iff.1 hs)]

/-- A readable statement is no warning, and what it binds comes first. -/
theorem bound_statement {b : Binding} {first : Option (String × String)}
    {entries : List (String × String)} (h : c.next? = some (.bound b, d))
    (hb : Item.entry? (.bound b) = first) (hd : d.bound = entries ∧ d.warned = []) :
    c.bound = first.toList ++ entries ∧ c.warned = [] := by
  obtain ⟨rfl, hwarned⟩ := hd
  subst hb
  refine ⟨bound_of_some h, ?_⟩
  rw [warned_of_some h, hwarned]
  rfl

/-- The lines that are left are read one by one, whatever blanks come first. -/
theorem bound_written (lines : List Line)
    (h : c.rest.dropWhile isBlank = (written lines).dropWhile isBlank) :
    c.bound = lines.filterMap Line.entry? ∧ c.warned = [] := by
  induction lines generalizing c with
  | nil =>
    have hnone : c.next? = none := next?_of_blank h
    exact ⟨bound_of_none hnone, warned_of_none hnone⟩
  | cons line lines ih =>
    have hrest (l : Nat) := ih (c := ⟨written lines, l⟩) rfl
    rw [written, List.flatMap_cons, ← written] at h
    cases line with
    | gap g =>
      have hgap : g.text ++ written lines =
          g.blanks ++ ((g.remark.elim [] fun r => '#' :: r.text) ++ '\n' :: written lines) := by
        simp [Gap.text]
      rw [Line.text, hgap, List.dropWhile_append_of_pos g.blank] at h
      cases hr : g.remark with
      | none =>
        rw [hr] at h
        exact ih h
      | some r =>
        rw [hr] at h
        obtain ⟨l, hl⟩ := next?_statement (List.cons_ne_nil _ _) h fun line =>
          ⟨_, statement_remark r (written lines)⟩
        exact bound_statement hl rfl (hrest l)
    | assignment a =>
      obtain ⟨x, t, hx, hname⟩ := a.text_starts (written lines)
      have hdrop : (a.text ++ written lines).dropWhile isBlank = a.text ++ written lines := by
        rw [hx, List.dropWhile_cons_of_neg (by simp [isBlank_eq_false_of_isNameChar x hname])]
      obtain ⟨l, hl⟩ := next?_statement (hx ▸ List.cons_ne_nil x t) (h.trans hdrop) fun line =>
        statement_assignment a (written lines)
      have hentry : Item.entry? (.bound ⟨some a.key.toList, some a.value.toList⟩) =
          some (a.key, a.value) := by
        show some (String.ofList a.key.toList, String.ofList a.value.toList) = _
        rw [String.ofList_toList, String.ofList_toList]
      exact bound_statement hl hentry (hrest l)

end Cursor

theorem written_head?_ne (lines : List Line) : (written lines).head? ≠ some '\uFEFF' := by
  cases lines with
  | nil => nofun
  | cons line lines =>
    rw [written, List.flatMap_cons]
    cases line with
    | gap g =>
      rw [Line.text, Gap.text, List.append_assoc, List.append_assoc]
      cases hb : g.blanks with
      | nil => cases g.remark <;> simp
      | cons c b =>
        intro hc
        have hblank : isBlank c = true := g.blank c (hb ▸ List.mem_cons_self)
        rw [Option.some.inj hc] at hblank
        exact absurd hblank (by decide)
    | assignment a =>
      obtain ⟨c, t, ht, hname⟩ := a.text_starts (lines.flatMap Line.text)
      rw [Line.text, ht]
      intro hc
      rw [Option.some.inj hc] at hname
      exact absurd hname (by decide)

/-- Every value can be stored: whatever the values are, the keys come back with them, each once and in
their order, and no statement is refused. -/
theorem entries_written (lines : List Line)
    (h : ((lines.filterMap Line.entry?).map Prod.fst).Nodup) :
    entries (written lines) = lines.filterMap Line.entry? ∧ malformed (written lines) = [] := by
  have hmark : withoutMark (written lines) = written lines := if_neg (written_head?_ne lines)
  obtain ⟨hbound, hwarned⟩ := Cursor.bound_written (c := ⟨withoutMark (written lines), 1⟩) lines
    (by rw [hmark])
  refine ⟨?_, hwarned⟩
  rw [entries_eq_update, bindings_eq, hbound]
  exact Table.foldl_put_new (t := []) h

theorem entries_written_statement :
    ∃ lines, ((lines.filterMap Line.entry?).map Prod.fst).Nodup ∧
      written lines = "\t# A='1'\nexport A='x\\' # y\nB=\\\\' # it's A\n\n \nB='\r\n='\n".toList ∧
      entries (written lines) = [("A", "x' # y\nB=\\"), ("B", "\r\n=")] ∧
      malformed (written lines) = [] := by
  -- a value with a closing quote, a comment and a statement in it, behind a comment that looks
  -- like one
  let lines : List Line := [
    .gap ⟨['\t'], some (.ofText " A='1'".toList (by decide)), List.all_eq_true.1 (by decide)⟩,
    .assignment ⟨"A", "x' # y\nB=\\", true, some (.ofText " it's A".toList (by decide)), by decide⟩,
    .gap ⟨"\n ".toList, none, List.all_eq_true.1 (by decide)⟩,
    .assignment ⟨"B", "\r\n=", false, none, by decide⟩]
  have hkeys : ((lines.filterMap Line.entry?).map Prod.fst).Nodup := by decide
  obtain ⟨hentries, hwarned⟩ := entries_written lines hkeys
  exact ⟨lines, hkeys, by decide, hentries, hwarned⟩

end EnvKeeper.Declarations
