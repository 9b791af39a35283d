import EnvKeeper.Proofs.Declarations.Continued
import EnvKeeper.Proofs.Table

/-! The keys that a text binds, repeats included. A line feed cuts a text into two that are read
apart, if one side has no quotes: no statement, readable or not, goes over the cut. -/

namespace EnvKeeper.Declarations

namespace Cursor

variable {c d : Cursor}

theorem items_of_none (h : c.next? = none) : c.items = [] := by
  rw [items]
  split
  · rfl
  · next he => rw [h] at he; cases he

theorem items_of_some {i : Item} (h : c.next? = some (i, d)) : c.items = i :: d.items := by
  rw [items]
  split
  · next he => rw [h] at he; cases he
  · next i' d' he =>
    obtain ⟨rfl, rfl⟩ : i' = i ∧ d' = d := by simpa [h] using he.symm
    rfl

/-- The keys bound from a place on, with their values. -/
def bound (c : Cursor) : List (String × String) := c.items.filterMap Item.entry?

/-- The lines of the statements from a place on that cannot be read. -/
def warned (c : Cursor) : List Nat := c.items.filterMap Item.line?

theorem bound_of_none (h : c.next? = none) : c.bound = [] := by
  rw [bound, items_of_none h]
  rfl

theorem bound_of_some {i : Item} (h : c.next? = some (i, d)) :
    c.bound = i.entry?.toList ++ d.bound := by
  rw [bound, items_of_some h, List.filterMap_cons]
  cases i.entry? <;> rfl

theorem warned_of_none (h : c.next? = none) : c.warned = [] := by
  rw [warned, items_of_none h]
  rfl

theorem warned_of_some {i : Item} (h : c.next? = some (i, d)) :
    c.warned = i.line?.toList ++ d.warned := by
  rw [warned, items_of_some h, List.filterMap_cons]
  cases i.line? <;> rfl

theorem next?_of_blank (h : c.rest.dropWhile isBlank = []) : c.next? = none := by
  have hn : (c.skipWhile isBlank).rest.isEmpty = true := List.isEmpty_iff.2 h
  rw [next?, if_pos hn]

theorem bound_congr (h : Joins [] c d) : d.bound = c.bound := by
  have hm : StartsLine [] := nofun
  have hq : HasNoQuote [] := ⟨nofun, nofun⟩
  induction c using Cursor.items.induct generalizing d with
  | case1 c hc =>
    have hd := (next?_more hm (.inr hq) h).1 hc
    rw [bound_of_none hc, bound_of_none (next?_of_blank hd)]
  | case2 c i e hc _ ih =>
    obtain ⟨j, f, hd, hi, hj⟩ := (next?_more hm (.inr hq) h).2 i e hc
    rw [bound_of_some hc, bound_of_some hd, hi, ih hj]

theorem bound_joins {more : List Char} (hm : StartsLine more)
    (hq : HasNoQuote c.rest ∨ HasNoQuote more) (h : Joins more c d) :
    d.bound = c.bound ++ bound ⟨more, 0⟩ := by
  induction c using Cursor.items.induct generalizing d with
  | case1 c hc => rw [bound_of_none hc, bound_congr ((next?_more hm hq h).1 hc), List.nil_append]
  | case2 c i e hc _ ih =>
    obtain ⟨j, f, hd, hi, hj⟩ := (next?_more hm hq h).2 i e hc
    have hq := hq.imp_left fun hq => hq.of_suffix (next?_suffix hc)
    rw [bound_of_some hc, bound_of_some hd, hi, ih hq hj, List.append_assoc]

end Cursor

/-- A text without the byte order mark that it may start with. -/
def withoutMark (text : List Char) : List Char :=
  if text.head? = some '\uFEFF' then text.tail else text

def bindings (text : List Char) : List (String × String) := (items text).filterMap Item.entry?

theorem bindings_eq (text : List Char) : bindings text = Cursor.bound ⟨withoutMark text, 1⟩ := rfl

theorem entries_eq (text : List Char) :
    entries text = (bindings text).foldl (fun (t : Table String String) (k, v) => t.put k v) [] := rfl

theorem withoutMark_append_line (pre post : List Char) :
    withoutMark (pre ++ '\n' :: post) = withoutMark pre ++ '\n' :: post := by
  cases pre with
  | nil => rfl
  | cons c pre =>
    unfold withoutMark
    rw [List.cons_append, List.head?_cons, List.head?_cons]
    by_cases hc : some c = some '\uFEFF'
    · rw [if_pos hc, if_pos hc]
      rfl
    · rw [if_neg hc, if_neg hc]
      rfl

theorem withoutMark_suffix (text : List Char) : withoutMark text <:+ text := by
  unfold withoutMark
  split
  · exact List.tail_suffix text
  · exact List.suffix_rfl

theorem bindings_append_line (pre post : List Char) (hq : HasNoQuote pre ∨ HasNoQuote post)
    (hb : post.head? ≠ some '\uFEFF') :
    bindings (pre ++ '\n' :: post) = bindings pre ++ bindings post := by
  have hm : StartsLine ('\n' :: post) := fun c hc => (Option.some.inj hc).symm
  have hq : HasNoQuote (withoutMark pre) ∨ HasNoQuote ('\n' :: post) := by
    refine hq.imp (fun h => h.of_suffix (withoutMark_suffix pre)) fun h => ?_
    exact ⟨by simpa using h.1, by simpa using h.2⟩
  have hpost : withoutMark post = post := if_neg hb
  have hline : Cursor.bound ⟨'\n' :: post, 0⟩ = Cursor.bound ⟨post, 1⟩ :=
    Cursor.bound_congr (c := ⟨post, 1⟩) (by simp [Joins, isBlank])
  rw [bindings_eq, bindings_eq, bindings_eq, withoutMark_append_line, hpost, ← hline]
  exact Cursor.bound_joins (c := ⟨withoutMark pre, 1⟩) hm hq (.of_rest rfl)

theorem entries_eq_update (text : List Char) : entries text = Table.update [] (bindings text) := rfl

theorem nodup_keys_entries (text : List Char) : (entries text).keys.Nodup :=
  Table.nodup_keys_foldl (bindings text) .nil

/-- A line feed cuts a text in two if one of the parts has no quotes: what the second part declares
is put into what the first one does. So a key of the first part keeps its place and takes the later
value, and a new key goes to the end. -/
theorem entries_append_line (pre post : List Char) (hq : HasNoQuote pre ∨ HasNoQuote post)
    (hb : post.head? ≠ some '\uFEFF') :
    entries (pre ++ '\n' :: post) = (entries pre).update (entries post) ∧
      (entries (pre ++ '\n' :: post)).keys =
        (entries pre).keys ++ (entries post).keys.filter (· ∉ (entries pre).keys) ∧
      ∀ k, (entries (pre ++ '\n' :: post)).get? k =
        ((entries post).get? k).or ((entries pre).get? k) := by
  have hupdate : entries (pre ++ '\n' :: post) = (entries pre).update (entries post) := by
    rw [entries_eq_update, entries_eq_update, entries_eq_update, bindings_append_line pre post hq hb,
      Table.update_append, Table.update_update_nil]
  rw [hupdate]
  refine ⟨rfl, Table.keys_update _ (nodup_keys_entries post), fun k => ?_⟩
  exact Table.get?_update _ k (nodup_keys_entries post)

/-- A quote that is never closed, a CR and a statement without a key, before and behind the cut. -/
theorem entries_append_line_unclosed :
    HasNoQuote "B=2\r=x\nexport C\nA=3".toList ∧
    entries ("A=1\nX='1\rB".toList ++ '\n' :: "B=2\r=x\nexport C\nA=3".toList) =
      [("A", "3"), ("B", "2"), ("C", "")] := by
  have hq : HasNoQuote "B=2\r=x\nexport C\nA=3".toList := ⟨by decide, by decide⟩
  have hpre : entries "A=1\nX='1\rB".toList = [("A", "1"), ("B", "")] := by decide +kernel
  have hpost : entries "B=2\r=x\nexport C\nA=3".toList = [("B", "2"), ("C", ""), ("A", "3")] := by
    decide +kernel
  obtain ⟨hcut, -, -⟩ := entries_append_line "A=1\nX='1\rB".toList "B=2\r=x\nexport C\nA=3".toList
    (.inr hq) (by decide)
  refine ⟨hq, ?_⟩
  rw [hcut, hpre, hpost]
  decide

end EnvKeeper.Declarations
