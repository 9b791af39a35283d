import EnvKeeper.Proofs.Document.Yaml.Layout

/-! What is written as YAML is read back, if its simple keys are no longer than the reader allows. Else
it is not read at all. Documents are nested so little that no line starts behind the width at which
scalars are folded. -/

namespace EnvKeeper

mutual

def Document.depth : Document → Nat
  | .text _ => 0
  | .number _ => 0
  | .list l => Document.depthOfItems l + 1
  | .table f => Document.depthOfFields f + 1

def Document.depthOfItems : List Document → Nat
  | [] => 0
  | d :: l => max d.depth (Document.depthOfItems l)

def Document.depthOfFields : List (String × Document) → Nat
  | [] => 0
  | (_, d) :: f => max d.depth (Document.depthOfFields f)

end

namespace Yaml

/-- A key is marked, or what is written of it is not too long. -/
def keyFits (longest : Nat) (key : String) : Bool :=
  !isSimpleKey key.toList || decide ((scalar ⟨0, false⟩ 0 key.toList).length ≤ longest)

theorem keyFits_iff {longest : Nat} {key : String} : keyFits longest key = true ↔
    (isSimpleKey key.toList = true → (scalar ⟨0, false⟩ 0 key.toList).length ≤ longest) := by
  rw [keyFits, Bool.or_eq_true, decide_eq_true_eq]
  cases isSimpleKey key.toList <;> simp

theorem keyFits_mono {m n : Nat} (h : m ≤ n) {key : String} (hm : keyFits m key = true) :
    keyFits n key = true := by
  rw [keyFits_iff] at hm ⊢
  exact fun hsimple => Nat.le_trans (hm hsimple) h

/-- Keys that are not too long for a large enough number. -/
theorem exists_keyFits (keys : List String) : ∃ m, keys.all (keyFits m) = true := by
  induction keys with
  | nil => exact ⟨0, rfl⟩
  | cons key keys ih =>
    obtain ⟨m, hm⟩ := ih
    refine ⟨max m (scalar ⟨0, false⟩ 0 key.toList).length, ?_⟩
    rw [List.all_eq_true] at hm ⊢
    refine List.forall_mem_cons.2 ⟨?_, ?_⟩
    · exact keyFits_iff.2 fun _ => Nat.le_max_right _ _
    · intro k hk
      exact keyFits_mono (Nat.le_max_left _ _) (hm k hk)

section Keys

variable (longest : Nat)

mutual

/-- All keys of a document fit. -/
def keysFit : Document → Bool
  | .text _ => true
  | .number _ => true
  | .list l => itemsFit l
  | .table f => fieldsFit f

def itemsFit : List Document → Bool
  | [] => true
  | d :: l => keysFit d && itemsFit l

def fieldsFit : List (String × Document) → Bool
  | [] => true
  | (key, d) :: f => keyFits longest key && keysFit d && fieldsFit f

end

end Keys

section Follows

/-- What stands behind a value: the line ends, and the next token is the end of the text or stands
before column `m`. -/
structure Follows (m : Nat) (rest : List Char) (next : Spot) : Prop where
  line : rest = [] ∨ rest.head? = some '\n'
  spot : spotBehind 0 rest = next
  stop : next.text = [] ∨ next.column < m

variable {m n : Nat} {rest : List Char} {next : Spot}

theorem Follows.mono (h : Follows m rest next) (hmn : m ≤ n) : Follows n rest next :=
  ⟨h.line, h.spot, h.stop.imp_right fun hm => Nat.lt_of_lt_of_le hm hmn⟩

theorem Follows.closesLine (h : Follows m rest next) : ClosesLine rest := by
  intro c hc
  rcases h.line with rfl | hline
  · cases hc
  · rw [hline] at hc
    exact .inr (Option.some.inj hc).symm

theorem spotBehind_newLines (n : Nat) {x : List Char} (hx : IsSolid x) (c : Nat) :
    spotBehind c (newLines 0 n ++ x) = ⟨n, x⟩ := by
  have hbreak : '\n' ∈ newLines 0 n := List.mem_cons_self
  rw [spotBehind, whites_append (white_newLines 0 n) hx, if_pos hbreak, columnOf_newLines,
    skipWhites_append (white_newLines 0 n), skipWhites_of_solid hx]

theorem follows_newLines (hn : n < m) {x : List Char} (hx : IsSolid x) :
    Follows m (newLines 0 n ++ x) ⟨n, x⟩ :=
  ⟨.inr rfl, spotBehind_newLines n hx 0, .inr hn⟩

theorem Follows.plainPiece (h : Follows m rest next) : plainPiece m rest = none := by
  rcases h.line with rfl | hline
  · rfl
  obtain ⟨t, rfl⟩ := List.head?_eq_some_iff.1 hline
  obtain rfl := h.spot
  have hwhites : whites ('\n' :: t) = '\n' :: whites t := rfl
  rw [Yaml.plainPiece, if_pos (by decide)]
  split
  · rfl
  next hmore =>
  rw [readWhites, hwhites, List.count_cons_self, if_neg (Nat.succ_ne_zero _)]
  rcases h.stop with htext | hcolumn
  · simp only [spotBehind] at htext
    have : skipWhites t = [] := htext
    rw [this] at hmore
    exact absurd rfl hmore
  · have hbreak : '\n' ∈ whites ('\n' :: t) := List.mem_cons_self
    simp only [spotBehind, if_pos hbreak] at hcolumn
    rw [if_pos (hwhites ▸ hcolumn)]

theorem Follows.nextLine (h : Follows m rest next) : nextLine rest = some next := by
  rw [Yaml.nextLine, h.spot, if_pos]
  rcases h.line with rfl | hline
  · exact .inl rfl
  · obtain ⟨t, rfl⟩ := List.head?_eq_some_iff.1 hline
    exact .inr List.mem_cons_self

theorem Follows.not_key (h : Follows m rest next) : startsMark ':' (skipSpaces rest) = false := by
  rcases h.line with rfl | hline
  · rfl
  · obtain ⟨t, rfl⟩ := List.head?_eq_some_iff.1 hline
    rfl

end Follows

section Steps

variable {longest k m n : Nat} {x rest : List Char} {next : Spot}

theorem behindMark_token (c : Char) (hx : Starts x) :
    behindMark ⟨n, c :: ' ' :: x⟩ = some ⟨n + 2, x⟩ := by
  have hbreak : '\n' ∉ [' '] := by decide
  have hspot : spotBehind (n + 1) (' ' :: x) = ⟨n + 2, x⟩ := by
    rw [spotBehind, whites_space, skipWhites_space, whites_of_solid hx.isSolid,
      skipWhites_of_solid hx.isSolid, if_neg hbreak]
    rfl
  have hcolumn : n < n + 2 := by omega
  simp only [behindMark, List.tail_cons, hspot]
  rw [if_pos ⟨hx.ne_nil, hcolumn⟩]

theorem readNode_scalar {d : Document} {c : Nat} (hx : Opens x)
    (hread : readScalar m x = some (d, rest)) (h : Follows n rest next) :
    readNode longest (k + 1) m ⟨c, x⟩ = some (d, next) := by
  rw [readNode, hx.item, hx.key, if_neg (by decide), if_neg (by decide), hread]
  simp only [Option.bind_eq_bind, Option.bind_some, h.not_key, h.nextLine]
  rfl

theorem readValue_line {d : Document} {c : Nat} (hx : IsSolid x)
    (hread : readScalar (c + 1) x = some (d, rest)) (h : Follows n rest next) :
    readValue longest (k + 1) c (' ' :: x) = some (d, next) := by
  have hwhites : whites (' ' :: x) = [' '] := by rw [whites_space, whites_of_solid hx]
  have hbreak : '\n' ∉ whites (' ' :: x) := by
    rw [hwhites]
    decide
  have htext : (spotBehind 0 (' ' :: x)).text = x := by
    rw [spotBehind, skipWhites_space, skipWhites_of_solid hx]
  rw [readValue, if_neg hbreak]
  simp only [htext, hread, Option.bind_eq_bind, Option.bind_some, h.nextLine]
  rfl

/-- The value of a key in a further line. -/
theorem readValue_newLine {c : Nat} (hx : IsSolid x) :
    readValue longest (k + 1) c (newLines 0 n ++ x) =
      if c < n then readNode longest k (c + 1) ⟨n, x⟩
      else if n = c ∧ startsMark '-' x then
        (readItems longest k true ⟨n, x⟩).map fun (l, q) => (.list l, q)
      else none := by
  have hbreak : '\n' ∈ whites (newLines 0 n ++ x) := by
    rw [whites_append (white_newLines 0 n) hx]
    exact List.mem_cons_self
  rw [readValue, if_pos hbreak, spotBehind_newLines n hx]

theorem readScalar_text (hn : n + 2 < width) (h : Follows (n + 1) rest next) (col : Nat)
    (s : String) :
    readScalar (n + 1) (text n col s ++ rest) = some (.text s, rest) ∧
      Opens (text n col s ++ rest) := by
  have hm : n + 1 ≤ (⟨n + 2, true⟩ : Place).indent := Nat.le_succ (n + 1)
  exact ⟨readScalar_scalar hm hn s h.closesLine h.plainPiece, opens_scalar _ h.closesLine⟩

/-- Either way to write the empty collections. -/
theorem readScalar_empty :
    readScalar m ('[' :: ']' :: rest) = some (.list [], rest) ∧
      readScalar m ('\x7b' :: '\x7d' :: rest) = some (.table [], rest) := ⟨rfl, rfl⟩

section Keys

variable {key : String}

theorem staysInLine_simpleKey (h : isSimpleKey key.toList = true) (n : Nat) :
    StaysInLine ⟨n, false⟩ key.toList := by
  refine ⟨rfl, fun hbreak => ?_⟩
  simp only [isSimpleKey, Bool.and_eq_true, Bool.not_eq_true', List.any_eq_false] at h
  exact h.1.2 '\n' hbreak (by decide)

theorem closesLine_colon (x : List Char) : ClosesLine (':' :: x) := by
  intro c hc
  exact .inl (Option.some.inj hc).symm

theorem startsMark_colon (hx : x.head?.all isWhite = true) : startsMark ':' (':' :: x) = true := by
  rw [startsMark, hx]
  rfl

theorem readScalar_simpleKey (h : isSimpleKey key.toList = true) (hm : m < width) (n : Nat)
    (hx : x.head?.all isWhite = true) :
    readScalar m (simpleKey n key ++ x) = some (.text key, ':' :: x) := by
  have hstop : plainPiece m (':' :: x) = none := by
    rw [plainPiece, if_neg (by decide), if_pos (startsMark_colon hx)]
  rw [simpleKey, List.append_assoc, List.singleton_append,
    scalar_same (r := ⟨m, false⟩) (staysInLine_simpleKey h n) rfl n m]
  exact readScalar_scalar (Nat.le_refl m) hm key (closesLine_colon x) hstop

theorem opens_simpleKey (n : Nat) (key : String) (x : List Char) :
    Opens (simpleKey n key ++ x) := by
  rw [simpleKey, List.append_assoc]
  exact opens_scalar _ (closesLine_colon x)

/-- A simple key is read if it is not too long. -/
theorem readKey_simpleKey (longest : Nat) (h : isSimpleKey key.toList = true) (hn : n + 1 < width)
    (hx : x.head?.all isWhite = true) :
    readKey longest ⟨n, simpleKey n key ++ x⟩ =
      if keyFits longest key then some (key, x) else none := by
  have hstays := staysInLine_simpleKey h n
  have hread := readScalar_simpleKey h hn n hx
  have hline : '\n' ∉ scalar ⟨n, false⟩ n key.toList := by
    intro hbreak
    have hall := all_scalar (P := isPrintable) (fun _ hc => hc) (.inr hstays) n
    exact absurd (List.all_eq_true.1 hall _ hbreak) (by decide)
  have hskip : skipSpaces (':' :: x) = ':' :: x := rfl
  have hwritten : (simpleKey n key ++ x).take
      ((simpleKey n key ++ x).length - (':' :: x).length) = scalar ⟨n, false⟩ n key.toList := by
    simp [simpleKey]
  rw [keyFits, h, scalar_same (r := ⟨n, false⟩) (staysInLine_simpleKey h 0) rfl 0 n]
  simp only [readKey, hread, Option.bind_eq_bind, Option.bind_some, text?, hskip, hwritten,
    startsMark_colon hx, hline, true_and, not_false_eq_true, and_true, Bool.not_true, Bool.false_or,
    decide_eq_true_eq, List.tail_cons, Option.pure_def]

end Keys

/-- What comes first of some rows. -/
theorem rows_prefix (n : Nat) (x : List Char) (l : List (List Char)) :
    ∃ t, rows n (x :: l) = x ++ t := by
  by_cases h : l = []
  · exact ⟨[], by rw [h, rows_singleton, List.append_nil]⟩
  · exact ⟨_, rows_cons n x h⟩

theorem starts_field (n : Nat) (key : String) (d : Document) (x : List Char) :
    Starts (field n key d ++ x) ∧ startsMark '-' (field n key d ++ x) = false := by
  rw [field]
  split
  · rw [List.append_assoc]
    exact ⟨(opens_simpleKey n key _).starts, (opens_simpleKey n key _).item⟩
  · exact ⟨starts_cons (by decide) _, rfl⟩

/-- A sequence starts with the mark of an item. -/
theorem starts_items (n : Nat) (d : Document) (l : List Document) (x : List Char) :
    Starts (rows n (items n (d :: l)) ++ x) ∧
      startsMark '-' (rows n (items n (d :: l)) ++ x) = true := by
  obtain ⟨t, ht⟩ := rows_prefix n ('-' :: ' ' :: marked n d) (items n l)
  rw [items, ht]
  exact ⟨starts_cons (by decide) _, rfl⟩

/-- A mapping does not, so it is told from the items of a sequence in its column. -/
theorem starts_fields (n : Nat) (key : String) (d : Document) (f : List (String × Document))
    (x : List Char) :
    Starts (rows n (fields n ((key, d) :: f)) ++ x) ∧
      startsMark '-' (rows n (fields n ((key, d) :: f)) ++ x) = false := by
  obtain ⟨t, ht⟩ := rows_prefix n (field n key d) (fields n f)
  rw [fields_cons, ht, List.append_assoc]
  exact starts_field n key d (t ++ x)

theorem starts_marked (n : Nat) (d : Document) : Starts (marked n d) := by
  unfold marked
  split
  · next s =>
    have hopen : Opens (scalar ⟨n + 2, true⟩ (n + 2) s.toList ++ []) := opens_scalar _ nofun
    rw [List.append_nil] at hopen
    exact hopen.starts
  · next k =>
    have hend : plainPiece 0 [] = none := rfl
    have hstart := (readScalar_number k 0 hend).2
    rw [List.append_nil] at hstart
    exact (opens_of_startsBare hstart).starts
  · exact starts_cons (by decide) _
  · next l hl =>
    obtain ⟨d, l, rfl⟩ := List.exists_cons_of_ne_nil hl
    have hstarts := (starts_items (n + 2) d l []).1
    rwa [List.append_nil] at hstarts
  · exact starts_cons (by decide) _
  · next f hf =>
    obtain ⟨⟨key, d⟩, f, rfl⟩ := List.exists_cons_of_ne_nil hf
    have hstarts := (starts_fields (n + 2) key d f []).1
    rwa [List.append_nil] at hstarts

theorem white_behindKey (n col : Nat) (d : Document) (rest : List Char) :
    (behindKey n col d ++ rest).head?.all isWhite = true := by
  unfold behindKey
  split <;> rfl

theorem behindMark_marked (c : Char) (n : Nat) (d : Document) (x : List Char) :
    behindMark ⟨n, c :: ' ' :: (marked n d ++ x)⟩ = some ⟨n + 2, marked n d ++ x⟩ :=
  behindMark_token c ((starts_marked n d).append x)

/-- Reads an item up to its end. How it goes on is decided by the next token. -/
theorem readItems_item (flush : Bool) (d : Document) (x : List Char) :
    readItems longest (k + 1) flush ⟨n, '-' :: ' ' :: (marked n d ++ x)⟩ =
      (readNode longest k (n + 1) ⟨n + 2, marked n d ++ x⟩).bind fun (d, next) =>
        if next.column = n ∧ startsMark '-' next.text then
          (readItems longest k flush next).map fun (l, q) => (d :: l, q)
        else if next.text = [] ∨ next.column < n ∨ flush ∧ next.column = n then some ([d], next)
        else none := by
  rw [readItems, behindMark_marked]
  rfl

/-- A mapping is taken for one by its first key. -/
theorem readNode_fields (hm : m < width) (n : Nat) (key : String) (d : Document)
    (f : List (String × Document)) (rest : List Char) :
    readNode longest (k + 1) m ⟨n, rows n (fields n ((key, d) :: f)) ++ rest⟩ =
      (readFields longest k ⟨n, rows n (fields n ((key, d) :: f)) ++ rest⟩).map
        fun (f, q) => (.table f, q) := by
  have hitem := (starts_fields n key d f rest).2
  rw [readNode, if_neg (by rw [hitem]; decide)]
  obtain ⟨t, ht⟩ := rows_prefix n (field n key d) (fields n f)
  rw [fields_cons, ht, List.append_assoc]
  generalize t ++ rest = x
  by_cases hkey : startsMark '?' (field n key d ++ x) = true
  · rw [if_pos hkey]
  rw [if_neg hkey]
  by_cases hsimple : isSimpleKey key.toList = true
  · have hwhite := white_behindKey n (n + (simpleKey n key).length) d x
    have hread := readScalar_simpleKey hsimple hm n hwhite
    rw [field, if_pos hsimple, List.append_assoc, hread]
    have hmark : startsMark ':' (skipSpaces (':' ::
        (behindKey n (n + (simpleKey n key).length) d ++ x))) = true := startsMark_colon hwhite
    simp only [Option.bind_eq_bind, Option.bind_some]
    rw [if_pos hmark]
  · rw [field, if_neg hsimple] at hkey
    exact absurd rfl hkey

end Steps

/-- What is written is read back in `k` steps if it is short enough for them, or is refused for a
key that is too long. A token takes at most four steps: a node, its fields, a field and its value. -/
structure ReadsBack (longest k : Nat) : Prop where
  node : ∀ (d : Document) (n : Nat) (rest : List Char) (next : Spot),
    Follows (n + 1) rest next → n + 2 * d.depth + 2 < width → 4 * (marked n d).length + 4 ≤ k →
    readNode longest k (n + 1) ⟨n + 2, marked n d ++ rest⟩ =
      if keysFit longest d then some (d, next) else none
  items : ∀ (d : Document) (l : List Document) (n : Nat) (flush : Bool) (rest : List Char)
    (next : Spot), Follows (n + 1) rest next →
    next.text = [] ∨ next.column < n ∨ flush = true ∧ startsMark '-' next.text = false →
    n + 2 * Document.depthOfItems (d :: l) + 2 < width →
    4 * (rows n (Yaml.items n (d :: l))).length + 1 ≤ k →
    readItems longest k flush ⟨n, rows n (Yaml.items n (d :: l)) ++ rest⟩ =
      if itemsFit longest (d :: l) then some (d :: l, next) else none
  value : ∀ (d : Document) (n col : Nat) (rest : List Char) (next : Spot),
    Follows (n + 1) rest next →
    next.text = [] ∨ next.column < n ∨ startsMark '-' next.text = false →
    n + 2 * d.depth + 2 < width → 4 * (behindKey n col d).length + 1 ≤ k →
    readValue longest k n (behindKey n col d ++ rest) =
      if keysFit longest d then some (d, next) else none
  field : ∀ (key : String) (d : Document) (n : Nat) (rest : List Char) (next : Spot),
    Follows (n + 1) rest next →
    next.text = [] ∨ next.column < n ∨ startsMark '-' next.text = false →
    n + 2 * d.depth + 2 < width → 4 * (Yaml.field n key d).length + 2 ≤ k →
    readField longest k ⟨n, Yaml.field n key d ++ rest⟩ =
      if keyFits longest key && keysFit longest d then some ((key, d), next) else none
  fields : ∀ (key : String) (d : Document) (f : List (String × Document)) (n : Nat)
    (rest : List Char) (next : Spot), Follows n rest next →
    n + 2 * Document.depthOfFields ((key, d) :: f) + 2 < width →
    4 * (rows n (Yaml.fields n ((key, d) :: f))).length + 3 ≤ k →
    readFields longest k ⟨n, rows n (Yaml.fields n ((key, d) :: f)) ++ rest⟩ =
      if fieldsFit longest ((key, d) :: f) then some ((key, d) :: f, next) else none

namespace ReadsBack

variable {longest k : Nat} (ih : ReadsBack longest k)
include ih

theorem succ_node (d : Document) (n : Nat) (rest : List Char) (next : Spot)
    (h : Follows (n + 1) rest next) (hd : n + 2 * d.depth + 2 < width)
    (hk : 4 * (marked n d).length + 4 ≤ k + 1) :
    readNode longest (k + 1) (n + 1) ⟨n + 2, marked n d ++ rest⟩ =
      if keysFit longest d then some (d, next) else none := by
  match d with
  | .text s =>
    obtain ⟨hread, hopen⟩ := readScalar_text (by omega) h (n + 2) s
    exact readNode_scalar hopen hread h
  | .number m =>
    obtain ⟨hread, hopen⟩ := readScalar_number m (n + 1) h.plainPiece
    exact readNode_scalar (opens_of_startsBare hopen) hread h
  | .list [] => exact readNode_scalar (opens_of_ne (by decide) _) readScalar_empty.1 h
  | .table [] => exact readNode_scalar (opens_of_ne (by decide) _) readScalar_empty.2 h
  | .list (d :: l) =>
    have hmarked : marked n (.list (d :: l)) = rows (n + 2) (Yaml.items (n + 2) (d :: l)) := rfl
    rw [Document.depth] at hd
    rw [hmarked] at hk ⊢
    have hread := ih.items d l (n + 2) false rest next (h.mono (by omega))
      (h.stop.imp_right fun hcol => .inl (by omega)) (by omega) (by omega)
    rw [readNode, if_pos (starts_items (n + 2) d l rest).2, hread, keysFit]
    split <;> rfl
  | .table ((key, d) :: f) =>
    have hmarked : marked n (.table ((key, d) :: f)) =
        rows (n + 2) (Yaml.fields (n + 2) ((key, d) :: f)) := rfl
    rw [Document.depth] at hd
    rw [hmarked] at hk ⊢
    have hread := ih.fields key d f (n + 2) rest next (h.mono (by omega)) (by omega) (by omega)
    rw [readNode_fields (by omega), hread, keysFit]
    split <;> rfl

theorem succ_items (d : Document) (l : List Document) (n : Nat) (flush : Bool) (rest : List Char)
    (next : Spot) (h : Follows (n + 1) rest next)
    (hend : next.text = [] ∨ next.column < n ∨ flush = true ∧ startsMark '-' next.text = false)
    (hd : n + 2 * Document.depthOfItems (d :: l) + 2 < width)
    (hk : 4 * (rows n (Yaml.items n (d :: l))).length + 1 ≤ k + 1) :
    readItems longest (k + 1) flush ⟨n, rows n (Yaml.items n (d :: l)) ++ rest⟩ =
      if itemsFit longest (d :: l) then some (d :: l, next) else none := by
  rw [Document.depthOfItems] at hd
  rw [itemsFit]
  cases l with
  | nil =>
    simp only [Yaml.items, rows_singleton, List.length_cons, List.cons_append] at hk ⊢
    have hlast : ¬ (next.column = n ∧ startsMark '-' next.text = true) := by
      rintro ⟨hcol, hmark⟩
      rcases hend with htext | hlow | ⟨-, hitem⟩
      · rw [htext] at hmark
        cases hmark
      · omega
      · rw [hitem] at hmark
        cases hmark
    have hdone : next.text = [] ∨ next.column < n ∨ flush = true ∧ next.column = n := by
      rcases hend with htext | hlow | ⟨hflush, -⟩
      · exact .inl htext
      · exact .inr (.inl hlow)
      · rcases h.stop with htext | hcol
        · exact .inl htext
        · rcases Nat.lt_or_eq_of_le (Nat.le_of_lt_succ hcol) with hlow | heq
          · exact .inr (.inl hlow)
          · exact .inr (.inr ⟨hflush, heq⟩)
    rw [readItems_item, ih.node d n rest next h (by omega) (by omega)]
    cases keysFit longest d with
    | false => rfl
    | true =>
      simp only [if_true, Option.bind_some, if_neg hlast, if_pos hdone]
      rfl
  | cons d' l =>
    have hne : Yaml.items n (d' :: l) ≠ [] := List.cons_ne_nil _ _
    rw [Yaml.items, rows_cons n _ hne] at hk ⊢
    simp only [List.length_cons, List.length_append] at hk
    simp only [List.cons_append, List.append_assoc]
    obtain ⟨hstarts, hmark⟩ := starts_items n d' l rest
    have hitems := ih.items d' l n flush rest next h hend (by omega) (by omega)
    rw [readItems_item, ih.node d n _ _ (follows_newLines (Nat.lt_succ_self n) hstarts.isSolid)
      (by omega) (by omega)]
    cases keysFit longest d with
    | false => rfl
    | true =>
      simp only [if_true, Option.bind_some, hmark, and_self, hitems, Bool.true_and]
      split <;> rfl

theorem succ_value (d : Document) (n col : Nat) (rest : List Char) (next : Spot)
    (h : Follows (n + 1) rest next)
    (hend : next.text = [] ∨ next.column < n ∨ startsMark '-' next.text = false)
    (hd : n + 2 * d.depth + 2 < width) (hk : 4 * (behindKey n col d).length + 1 ≤ k + 1) :
    readValue longest (k + 1) n (behindKey n col d ++ rest) =
      if keysFit longest d then some (d, next) else none := by
  match d with
  | .text s =>
    obtain ⟨hread, hopen⟩ := readScalar_text (by omega) h (col + 1) s
    exact readValue_line hopen.starts.isSolid hread h
  | .number m =>
    obtain ⟨hread, hopen⟩ := readScalar_number m (n + 1) h.plainPiece
    exact readValue_line (opens_of_startsBare hopen).starts.isSolid hread h
  | .list [] => exact readValue_line (isSolid_cons (by decide) _) readScalar_empty.1 h
  | .table [] => exact readValue_line (isSolid_cons (by decide) _) readScalar_empty.2 h
  | .list (d :: l) =>
    have hbehind : behindKey n col (.list (d :: l)) =
        newLines 0 n ++ rows n (Yaml.items n (d :: l)) := rfl
    obtain ⟨hstarts, hmark⟩ := starts_items n d l rest
    have hlen := length_lt_newLines 0 n (rows n (Yaml.items n (d :: l)))
    rw [Document.depth] at hd
    rw [hbehind] at hk ⊢
    have hitems := ih.items d l n true rest next h
      (hend.imp_right (Or.imp_right fun hitem => ⟨rfl, hitem⟩)) (by omega) (by omega)
    rw [List.append_assoc, readValue_newLine hstarts.isSolid, if_neg (Nat.lt_irrefl n),
      if_pos ⟨rfl, hmark⟩, hitems, keysFit]
    split <;> rfl
  | .table ((key, d) :: f) =>
    have hbehind : behindKey n col (.table ((key, d) :: f)) =
        newLines 0 (n + 2) ++ marked n (.table ((key, d) :: f)) := rfl
    have hsolid := ((starts_marked n (.table ((key, d) :: f))).append rest).isSolid
    have hlen := length_lt_newLines 0 (n + 2) (marked n (.table ((key, d) :: f)))
    have hlower : n < n + 2 := by omega
    rw [hbehind] at hk ⊢
    rw [List.append_assoc, readValue_newLine hsolid, if_pos hlower]
    exact ih.node _ n rest next h hd (by omega)

theorem succ_field (key : String) (d : Document) (n : Nat) (rest : List Char) (next : Spot)
    (h : Follows (n + 1) rest next)
    (hend : next.text = [] ∨ next.column < n ∨ startsMark '-' next.text = false)
    (hd : n + 2 * d.depth + 2 < width) (hk : 4 * (Yaml.field n key d).length + 2 ≤ k + 1) :
    readField longest (k + 1) ⟨n, Yaml.field n key d ++ rest⟩ =
      if keyFits longest key && keysFit longest d then some ((key, d), next) else none := by
  by_cases hsimple : isSimpleKey key.toList = true
  · rw [Yaml.field, if_pos hsimple] at hk ⊢
    rw [List.length_append] at hk
    have hkey := (opens_simpleKey n key
      (behindKey n (n + (simpleKey n key).length) d ++ rest)).key
    have hread := readKey_simpleKey (n := n) longest hsimple (by omega)
      (white_behindKey n (n + (simpleKey n key).length) d rest)
    rw [List.append_assoc, readField, if_neg (by rw [hkey]; decide), hread]
    cases keyFits longest key with
    | false => rfl
    | true =>
      have hvalue := ih.value d n (n + (simpleKey n key).length) rest next h hend hd (by omega)
      simp only [if_true, Option.bind_eq_bind, Option.bind_some, hvalue, Bool.true_and]
      split <;> rfl
  · have hfits : keyFits longest key = true := by
      rw [keyFits, eq_false_of_ne_true hsimple]
      rfl
    have htext : marked n (.text key) = text n (n + 2) key := rfl
    have hkey : '?' :: ' ' :: text n (n + 2) key ++ newLines 0 n ++ ':' :: ' ' :: marked n d ++ rest =
        '?' :: ' ' :: (marked n (.text key) ++
          (newLines 0 n ++ ':' :: ' ' :: (marked n d ++ rest))) := by
      simp [htext]
    have hline : Follows (n + 1) (newLines 0 n ++ ':' :: ' ' :: (marked n d ++ rest))
        ⟨n, ':' :: ' ' :: (marked n d ++ rest)⟩ :=
      follows_newLines (Nat.lt_succ_self n) (isSolid_cons (by decide) _)
    rw [Yaml.field, if_neg hsimple] at hk ⊢
    simp only [List.length_append, List.length_cons] at hk
    have hread := ih.node (.text key) n _ _ hline (by rw [Document.depth]; omega)
      (by rw [htext]; omega)
    have hnode := ih.node d n rest next h hd (by omega)
    rw [hkey, readField, if_pos (by rfl), behindMark_marked]
    simp only [Option.bind_eq_bind, Option.bind_some, hread, keysFit, if_true, text?]
    rw [if_pos ⟨trivial, by rfl⟩, behindMark_marked]
    simp only [Option.bind_some, hnode, hfits, Bool.true_and]
    split <;> rfl

theorem succ_fields (key : String) (d : Document) (f : List (String × Document)) (n : Nat)
    (rest : List Char) (next : Spot) (h : Follows n rest next)
    (hd : n + 2 * Document.depthOfFields ((key, d) :: f) + 2 < width)
    (hk : 4 * (rows n (Yaml.fields n ((key, d) :: f))).length + 3 ≤ k + 1) :
    readFields longest (k + 1) ⟨n, rows n (Yaml.fields n ((key, d) :: f)) ++ rest⟩ =
      if fieldsFit longest ((key, d) :: f) then some ((key, d) :: f, next) else none := by
  rw [Document.depthOfFields] at hd
  rw [fieldsFit]
  cases f with
  | nil =>
    rw [fields_cons, Yaml.fields, rows_singleton] at hk ⊢
    have hfield := ih.field key d n rest next (h.mono (Nat.le_succ n))
      (h.stop.imp_right .inl) (by omega) (by omega)
    rw [readFields, hfield]
    cases keyFits longest key && keysFit longest d with
    | false => rfl
    | true =>
      simp only [if_true, Option.bind_eq_bind, Option.bind_some, if_pos h.stop]
      rfl
  | cons x f =>
    obtain ⟨key', d'⟩ := x
    have hne : Yaml.fields n ((key', d') :: f) ≠ [] := List.cons_ne_nil _ _
    rw [fields_cons, rows_cons n _ hne] at hk ⊢
    have hlen := length_lt_newLines 0 n (rows n (Yaml.fields n ((key', d') :: f)))
    rw [List.length_append] at hk
    rw [List.append_assoc, List.append_assoc]
    obtain ⟨hstarts, hitem⟩ := starts_fields n key' d' f rest
    have hmore := ih.fields key' d' f n rest next h (by omega) (by omega)
    generalize rows n (Yaml.fields n ((key', d') :: f)) ++ rest = y at hstarts hitem hmore ⊢
    have hlast : ¬ (y = [] ∨ n < n) := by simp [hstarts.ne_nil]
    have hfield := ih.field key d n _ _ (follows_newLines (Nat.lt_succ_self n) hstarts.isSolid)
      (.inr (.inr hitem)) (by omega) (by omega)
    rw [readFields, hfield]
    cases keyFits longest key && keysFit longest d with
    | false => rfl
    | true =>
      simp only [if_true, Option.bind_eq_bind, Option.bind_some, if_neg hlast, hmore, Bool.true_and]
      split <;> rfl

end ReadsBack

theorem readsBack (longest k : Nat) : ReadsBack longest k := by
  induction k with
  | zero =>
    refine ⟨?_, ?_, ?_, ?_, ?_⟩
    · intro d n rest next h hd hk
      omega
    · intro d l n flush rest next h hend hd hk
      omega
    · intro d n col rest next h hend hd hk
      omega
    · intro key d n rest next h hend hd hk
      omega
    · intro key d f n rest next h hd hk
      omega
  | succ k ih => exact ⟨ih.succ_node, ih.succ_items, ih.succ_value, ih.succ_field, ih.succ_fields⟩

/-- The end of a text. -/
theorem follows_end (m : Nat) : Follows m ['\n'] ⟨0, []⟩ := ⟨.inr rfl, rfl, .inl rfl⟩

theorem starts_body (f : List (String × Document)) (x : List Char) : Starts (body f ++ x) := by
  cases f with
  | nil => exact starts_cons (by decide) _
  | cons y f =>
    obtain ⟨key, d⟩ := y
    exact (starts_fields 0 key d f x).1

theorem readNode_body (longest k : Nat) {f : List (String × Document)}
    (hd : 2 * Document.depthOfFields f + 2 < width) (hk : 4 * (body f).length + 3 ≤ k) :
    readNode longest (k + 1) 1 ⟨0, body f ++ ['\n']⟩ =
      if fieldsFit longest f then some (.table f, ⟨0, []⟩) else none := by
  cases f with
  | nil =>
    exact readNode_scalar (opens_of_ne (by decide) _) readScalar_empty.2 (follows_end 0)
  | cons x f =>
    obtain ⟨key, d⟩ := x
    have hbody : body ((key, d) :: f) = rows 0 (fields 0 ((key, d) :: f)) := rfl
    have hfields := (readsBack longest k).fields key d f 0 ['\n'] ⟨0, []⟩ (follows_end 0) (by omega)
      (by rwa [hbody] at hk)
    rw [hbody, readNode_fields (by decide), hfields]
    split <;> rfl

/-- What was written of a table, with the last line end, is read back as the table, unless a simple
key of it has more than `longest` characters there. -/
theorem read_body (longest : Nat) {f : List (String × Document)}
    (hd : 2 * Document.depthOfFields f + 2 < width) :
    read longest (body f ++ ['\n']) = if fieldsFit longest f then some (.table f) else none := by
  have hascii : (body f ++ ['\n']).all isAscii = true := by
    rw [List.all_append, (neat_body f).ascii]
    rfl
  have hspot : spotBehind 0 (body f ++ ['\n']) = ⟨0, body f ++ ['\n']⟩ := by
    have hsolid := (starts_body f ['\n']).isSolid
    rw [spotBehind, whites_of_solid hsolid, skipWhites_of_solid hsolid]
    rfl
  rw [read, if_pos hascii, hspot, readNode_body longest _ hd (by rw [List.length_append]; omega)]
  cases fieldsFit longest f <;> rfl

end Yaml
end EnvKeeper
