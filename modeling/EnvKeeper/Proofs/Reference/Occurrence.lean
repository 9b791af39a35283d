import EnvKeeper.Proofs.Text.Name
import EnvKeeper.Reference.Search
import Mathlib.Data.List.TakeWhile

/-! Where a reference may stand in a text, said without the search, and that reading at a place
finds exactly the reference that stands there. So there is at most one at each place. -/

namespace EnvKeeper

theorem Quote.not_isNameChar (q : Quote) : isNameChar q.char = false := by
  cases q <;> decide

theorem readQuoted?_eq_some {stop : Char} {s name : List Char} {o q : Quote} :
    readQuoted? stop s = some (o, name, q) ↔
      IsName name ∧ ∃ after, s = o.char :: (name ++ q.char :: stop :: after) := by
  constructor
  · intro h
    cases s with
    | nil => simp [readQuoted?] at h
    | cons c s =>
      simp only [readQuoted?] at h
      split at h
      · next d name' q' e after ho ht hd =>
        split at h
        · next he =>
          obtain ⟨q'', hq, hr⟩ := Option.map_eq_some_iff.1 h
          cases hr
          refine ⟨⟨List.cons_ne_nil _ _, ht ▸ fun _ => List.mem_takeWhile_imp⟩, after, ?_⟩
          rw [Quote.ofChar?_eq_some.1 ho, ← Quote.ofChar?_eq_some.1 hq, ← he, ← hd, ← ht,
            List.takeWhile_append_dropWhile]
        · cases h
      · cases h
  · rintro ⟨⟨hn, hc⟩, after, rfl⟩
    obtain ⟨d, name, rfl⟩ := List.exists_cons_of_ne_nil hn
    have hs := span_append (r := q.char :: stop :: after) hc
      (by intro a ha; cases ha; exact q.not_isNameChar)
    simp only [readQuoted?]
    rw [hs.1, hs.2, Quote.ofChar?_eq_some.2 rfl]
    simp [Quote.ofChar?_eq_some.2 rfl]

/-- What must hold behind a name: a dotted one may not go on as a word. -/
def Access.EndsBefore (a : Access) (after : List Char) : Prop :=
  a = .member → ∀ c, after.head? = some c → isWord c = false

theorem Access.read?_member {s name : List Char} {a : Access} :
    Access.read? ('.' :: s) = some (a, name) ↔
      a = .member ∧ IsName name ∧ ∃ after, s = name ++ after ∧ a.EndsBefore after := by
  constructor
  · intro h
    simp only [Access.read?, if_pos, Bool.or_eq_true, List.isEmpty_iff] at h
    split at h
    · cases h
    · next hc =>
      cases h
      have hc := not_or.1 hc
      refine ⟨rfl, ⟨hc.1, fun _ => List.mem_takeWhile_imp⟩, _, List.takeWhile_append_dropWhile.symm, ?_⟩
      intro _ c hh
      simpa [startsWord, hh] using hc.2
  · rintro ⟨rfl, ⟨hn, hc⟩, after, rfl, he⟩
    have hs := span_append (r := after) hc (fun c hh => by
      have := he rfl c hh
      cases hb : isNameChar c
      · rfl
      · rw [isWord_of_isNameChar hb] at this; cases this)
    have hw : startsWord after = false := by
      cases after with
      | nil => rfl
      | cons c after => exact he rfl c rfl
    simp [Access.read?, hs.1, hs.2, hn, hw]

theorem Access.read?_quoted (opening stop : Char) (wrap : Quote → Quote → Access)
    (ht : ∀ o q name, (wrap o q).text name = opening :: o.char :: name ++ [q.char, stop])
    {s name : List Char} {a : Access} :
    (readQuoted? stop s).map (fun (o, name, q) => (wrap o q, name)) = some (a, name) ↔
      IsName name ∧ ∃ o q after, a = wrap o q ∧ opening :: s = a.text name ++ after := by
  rw [Option.map_eq_some_iff]
  constructor
  · rintro ⟨⟨o, n, q⟩, h, he⟩
    cases he
    obtain ⟨hn, after, rfl⟩ := readQuoted?_eq_some.1 h
    exact ⟨hn, o, q, after, rfl, by simp [ht]⟩
  · rintro ⟨hn, o, q, after, rfl, hs⟩
    rw [ht] at hs
    refine ⟨(o, name, q), readQuoted?_eq_some.2 ⟨hn, after, ?_⟩, rfl⟩
    simpa using hs

theorem Access.read?_eq_some {s name : List Char} {a : Access} :
    Access.read? s = some (a, name) ↔
      IsName name ∧ ∃ after, s = a.text name ++ after ∧ a.EndsBefore after := by
  cases s with
  | nil => cases a <;> simp [Access.read?, Access.text]
  | cons c s =>
    by_cases hd : c = '.'
    · subst hd
      rw [Access.read?_member]
      cases a <;> simp [Access.text]
    by_cases hi : c = '['
    · subst hi
      have h := @Access.read?_quoted '[' ']' .index (fun _ _ _ => rfl) s name a
      simp only [Access.read?, if_neg hd, if_pos, h]
      cases a <;> simp [Access.text, Access.EndsBefore]
    by_cases hp : c = '('
    · subst hp
      have h := @Access.read?_quoted '(' ')' .call (fun _ _ _ => rfl) s name a
      simp only [Access.read?, if_neg hd, if_neg hi, if_pos, h]
      cases a <;> simp [Access.text, Access.EndsBefore]
    · simp only [Access.read?, if_neg hd, if_neg hi, if_neg hp]
      cases a <;> simp [Access.text, hd, hi, hp]

namespace Reference

/-- What a reference asks of the text around it: only a bare `env` must stand free on its left. -/
structure Fits (before : Option Char) (r : Reference) (after : List Char) : Prop where
  name : IsName r.name
  left : r.space = .env → ∀ c, before = some c → isWord c = false
  right : r.access.EndsBefore after

/-- Whether `r` stands in `text` behind the first `start` characters. -/
def Occurs (text : List Char) (start : Nat) (r : Reference) : Prop :=
  ∃ before after, text = before ++ (r.text ++ after) ∧ before.length = start ∧
    r.Fits before.getLast? after

theorem space_text_ne_nil (n : Namespace) : n.text ≠ [] := by
  cases n <;> decide

theorem text_ne_nil (r : Reference) : r.text ≠ [] := by
  simp [Reference.text, space_text_ne_nil]

/-- The namespaces start with different characters. -/
theorem space_unique {m n : Namespace} {s t : List Char} (h : m.text ++ s = n.text ++ t) :
    m = n := by
  have hh : m.text.head? = n.text.head? := by
    obtain ⟨c, m', hm⟩ := List.exists_cons_of_ne_nil (space_text_ne_nil m)
    obtain ⟨d, n', hn⟩ := List.exists_cons_of_ne_nil (space_text_ne_nil n)
    rw [hm, hn] at h ⊢
    exact congrArg some (List.cons.inj h).1
  cases m <;> cases n <;> first | rfl | exact absurd hh (by decide)

def readIn? (before : Option Char) (s : List Char) (n : Namespace) : Option Reference :=
  if n = .env && before.any isWord then none
  else (afterStart? n.text s).bind fun rest =>
    (Access.read? rest).map fun (a, name) => ⟨n, a, name⟩

theorem read?_eq_findSome? (spaces : List Namespace) (before : Option Char) (s : List Char) :
    read? spaces before s = spaces.findSome? (readIn? before s) := rfl

theorem readIn?_eq_some {n : Namespace} {before : Option Char} {s : List Char} {r : Reference} :
    readIn? before s n = some r ↔
      n = r.space ∧ ∃ after, s = r.text ++ after ∧ r.Fits before after := by
  unfold readIn?
  split
  · next hw =>
    simp only [Bool.and_eq_true, decide_eq_true_eq, Option.any_eq_true] at hw
    obtain ⟨hn, c, hb, hc⟩ := hw
    refine iff_of_false nofun ?_
    rintro ⟨he, after, -, hf⟩
    rw [hf.left (he ▸ hn) c hb] at hc
    cases hc
  · next hw =>
    rw [Option.bind_eq_some_iff]
    constructor
    · rintro ⟨rest, hs, hr⟩
      obtain ⟨⟨a, name⟩, ha, he⟩ := Option.map_eq_some_iff.1 hr
      cases he
      obtain ⟨hn, after, rfl, hb⟩ := Access.read?_eq_some.1 ha
      refine ⟨rfl, after, by simp [afterStart?_eq_some.1 hs, Reference.text], hn, ?_, hb⟩
      intro he c hc
      cases h : isWord c
      · rfl
      · exact absurd (by simp [show n = .env from he, hc, h]) hw
    · rintro ⟨rfl, after, rfl, hf⟩
      refine ⟨r.access.text r.name ++ after, afterStart?_eq_some.2 (List.append_assoc ..), ?_⟩
      rw [Option.map_eq_some_iff]
      exact ⟨(r.access, r.name), Access.read?_eq_some.2 ⟨hf.name, after, rfl, hf.right⟩, rfl⟩

theorem read?_eq_some {spaces : List Namespace} {before : Option Char} {s : List Char}
    {r : Reference} :
    read? spaces before s = some r ↔
      r.space ∈ spaces ∧ ∃ after, s = r.text ++ after ∧ r.Fits before after := by
  rw [read?_eq_findSome?]
  constructor
  · intro h
    obtain ⟨n, hn, hr⟩ := List.exists_of_findSome?_eq_some h
    obtain ⟨rfl, hs⟩ := readIn?_eq_some.1 hr
    exact ⟨hn, hs⟩
  · rintro ⟨hm, hr⟩
    have hsome := readIn?_eq_some.2 ⟨rfl, hr⟩
    cases hf : spaces.findSome? (readIn? before s) with
    | none => rw [List.findSome?_eq_none_iff.1 hf _ hm] at hsome; cases hsome
    | some r' =>
      -- whatever namespace came first, the text starts with it as it starts with that of `r`
      obtain ⟨n, -, hn⟩ := List.exists_of_findSome?_eq_some hf
      obtain ⟨rfl, after', ht', -⟩ := readIn?_eq_some.1 hn
      obtain ⟨after, ht, -⟩ := hr
      rw [ht, Reference.text, Reference.text, List.append_assoc, List.append_assoc] at ht'
      rw [← space_unique ht', hsome] at hn
      exact hn.symm

theorem read?_iff_occurs {spaces : List Namespace} {before s : List Char} {r : Reference} :
    read? spaces before.getLast? s = some r ↔
      r.space ∈ spaces ∧ Occurs (before ++ s) before.length r := by
  rw [read?_eq_some]
  refine and_congr_right fun _ => ⟨?_, ?_⟩
  · rintro ⟨after, rfl, hf⟩
    exact ⟨before, after, rfl, rfl, hf⟩
  · rintro ⟨b, after, ht, hl, hf⟩
    obtain ⟨rfl, rfl⟩ := List.append_inj ht hl.symm
    exact ⟨after, rfl, hf⟩

theorem Occurs.add_length_le {text : List Char} {start : Nat} {r : Reference}
    (h : Occurs text start r) : start + r.text.length ≤ text.length := by
  obtain ⟨before, after, rfl, rfl, -⟩ := h
  simp only [List.length_append]
  omega

theorem Occurs.unique {text : List Char} {start : Nat} {r r' : Reference}
    (h : Occurs text start r) (h' : Occurs text start r') : r = r' := by
  obtain ⟨before, after, rfl, rfl, hf⟩ := h
  have hs (x : Reference) (hx : Occurs (before ++ (r.text ++ after)) before.length x) :
      read? Namespace.all before.getLast? (r.text ++ after) = some x :=
    read?_iff_occurs.2 ⟨by cases x.space <;> decide, hx⟩
  exact Option.some.inj ((hs r ⟨before, after, rfl, rfl, hf⟩).symm.trans (hs r' h'))

end Reference
end EnvKeeper
