import EnvKeeper.Proofs.Reference.Leftmost
import Mathlib.Data.List.Infix

/-! Which references are lost to an earlier one. A bare `env` that starts inside another reference is
the end of its namespace, and then both have the same access and end together; or it is its dotted
name, as in `env.env.A`. So a reference with a longer namespace is never lost. -/

namespace EnvKeeper

def Access.opening : Access → List Char
  | .member => ['.']
  | .index o _ => ['[', o.char]
  | .call o _ => ['(', o.char]

def Access.closing : Access → List Char
  | .member => []
  | .index _ c => [c.char, ']']
  | .call _ c => [c.char, ')']

theorem Access.text_eq (a : Access) (name : List Char) :
    a.text name = a.opening ++ (name ++ a.closing) := by
  cases a <;> simp [Access.text, Access.opening, Access.closing]

theorem Access.not_isNameChar_opening (a : Access) : ∀ c ∈ a.opening, isNameChar c = false := by
  have hdot : isNameChar '.' = false := by decide
  have hindex : isNameChar '[' = false := by decide
  have hcall : isNameChar '(' = false := by decide
  cases a <;> simp [Access.opening, Quote.not_isNameChar, hdot, hindex, hcall]

theorem Access.not_isNameChar_closing (a : Access) : ∀ c ∈ a.closing, isNameChar c = false := by
  have hindex : isNameChar ']' = false := by decide
  have hcall : isNameChar ')' = false := by decide
  cases a <;> simp [Access.closing, Quote.not_isNameChar, hindex, hcall]

theorem Access.EndsBefore.not_isNameChar {a : Access} {after : List Char} (h : a.EndsBefore after) :
    ∀ c, (a.closing ++ after).head? = some c → isNameChar c = false := by
  intro c hc
  cases a with
  | member =>
    have hw : isWord c = false := h rfl c hc
    by_contra hn
    rw [isWord_of_isNameChar (by simpa using hn)] at hw
    cases hw
  | index o q =>
    cases hc
    exact q.not_isNameChar
  | call o q =>
    cases hc
    exact q.not_isNameChar

theorem Access.eq_member_of_opening {a b : Access} {s t : List Char}
    (h : a.closing ++ s = b.opening ++ t) : a = .member := by
  cases a with
  | member => rfl
  | index o q => cases q <;> cases b <;> simp [Access.closing, Access.opening, Quote.char] at h
  | call o q => cases q <;> cases b <;> simp [Access.closing, Access.opening, Quote.char] at h

namespace Reference

def bareEnv : List Char := "env".toList

theorem isName_bareEnv : IsName bareEnv := by decide

/-- A namespace holds `env` at its end only. -/
theorem suffix_space_text {n : Namespace} {w : List Char} (h : w <:+ n.text) :
    w = [] ∨ w = bareEnv ∨ w.take 3 ≠ bareEnv.take w.length := by
  have hall : ∀ n ∈ Namespace.all, ∀ w ∈ n.text.tails,
      w = [] ∨ w = bareEnv ∨ w.take 3 ≠ bareEnv.take w.length := by decide
  apply hall n
  · cases n <;> decide
  · exact (List.mem_tails _ _).2 h

theorem take_of_append_eq {w s t : List Char} (h : w ++ s = bareEnv ++ t) :
    w.take 3 = bareEnv.take w.length := by
  have hlen : bareEnv.length = 3 := rfl
  rcases List.append_eq_append_iff.1 h with ⟨u, he, -⟩ | ⟨u, rfl, -⟩
  · rw [he, List.take_left, List.take_of_length_le]
    rw [← hlen, he]
    simp
  · rw [← hlen, List.take_left, List.take_of_length_le (by simp)]

theorem append_eq_append_cons {l r v x : List Char} {c : Char} (h : l ++ r = v ++ c :: x) :
    (∃ b, v = l ++ b ∧ r = b ++ c :: x) ∨ ∃ w, l = v ++ c :: w ∧ x = w ++ r := by
  rcases List.append_eq_append_iff.1 h with ⟨b, hv, hr⟩ | ⟨w, hl, hx⟩
  · exact .inl ⟨b, hv, hr⟩
  · cases w with
    | nil => exact .inl ⟨[], by simpa using hl.symm, by simpa using hx.symm⟩
    | cons d w =>
      obtain ⟨rfl, rfl⟩ := List.cons.inj hx
      exact .inr ⟨w, hl, rfl⟩

theorem split_access {a : Access} {name after v x : List Char} {c : Char}
    (h : a.text name ++ after = v ++ c :: x) (hc : isNameChar c = true)
    (hlt : v.length < (a.text name).length) :
    ∃ b w, v = a.opening ++ b ∧ name = b ++ c :: w ∧ x = w ++ (a.closing ++ after) := by
  have hout {l : List Char} (hl : ∀ c ∈ l, isNameChar c = false) (hm : c ∈ l) : False := by
    rw [hl c hm] at hc
    cases hc
  rw [a.text_eq] at h hlt
  simp only [List.append_assoc] at h
  rcases append_eq_append_cons h with ⟨b, rfl, hbehind⟩ | ⟨w, ho, -⟩
  · rcases append_eq_append_cons hbehind with ⟨b', rfl, hend⟩ | ⟨w, hn, hx⟩
    · rcases append_eq_append_cons hend with ⟨b'', rfl, -⟩ | ⟨w, hcl, -⟩
      · simp only [List.length_append] at hlt
        omega
      · exact (hout a.not_isNameChar_closing (by simp [hcl])).elim
    · exact ⟨b, w, rfl, hn, hx⟩
  · exact (hout a.not_isNameChar_opening (by simp [ho])).elim

/-- Where a whole word `env` with an access behind it starts in an access, it is the dotted name. -/
theorem inside_access {a b : Access} {name after v x : List Char} (hn : IsName name)
    (he : a.EndsBefore after) (h : a.text name ++ after = v ++ (bareEnv ++ (b.opening ++ x)))
    (hlt : v.length < (a.text name).length)
    (hleft : ∀ c, v.getLast? = some c → isWord c = false) :
    a = .member ∧ name = bareEnv ∧ v = ['.'] := by
  obtain ⟨u, w, rfl, rfl, hw⟩ := split_access (c := 'e') h (by decide) hlt
  -- the name starts here, for what stands before is no word
  obtain rfl : u = [] := by
    cases u using List.reverseRecOn with
    | nil => rfl
    | append_singleton u c =>
      have hc := hleft c (by rw [← List.append_assoc, List.getLast?_concat])
      rw [isWord_of_isNameChar (hn.2 c (by simp))] at hc
      cases hc
  rw [List.nil_append] at hn ⊢
  have hl : bareEnv ++ (b.opening ++ x) = ('e' :: w) ++ (a.closing ++ after) := by
    rw [List.cons_append, ← hw]
    rfl
  have hb : ∀ c, (b.opening ++ x).head? = some c → isNameChar c = false := by
    intro c hc
    apply b.not_isNameChar_opening c
    cases b <;> cases hc <;> exact List.mem_cons_self
  have hspan := span_append hn.2 he.not_isNameChar
  have hspan' := span_append isName_bareEnv.2 hb
  rw [← hl, hspan'.1, hspan'.2] at hspan
  obtain rfl := Access.eq_member_of_opening hspan.2.symm
  exact ⟨rfl, hspan.1.symm, by simp [Access.opening]⟩

theorem bareEnv_suffix (n : Namespace) : bareEnv <:+ n.text := by
  cases n <;> decide

theorem text_of_env {r : Reference} (h : r.space = .env) :
    r.text = bareEnv ++ r.access.text r.name := by
  rw [Reference.text, h]
  rfl

/-- A bare `env` that starts inside a reference ends the namespace or is the dotted name. -/
theorem inside_reference {r r' : Reference} {before : Option Char} {u after after' : List Char}
    (hf : r'.Fits before after') (hspace : r.space = .env)
    (h : r'.text ++ after' = u ++ (r.text ++ after)) (hne : u ≠ [])
    (hlt : u.length < r'.text.length) (hleft : ∀ c, u.getLast? = some c → isWord c = false) :
    r'.space.text = u ++ bareEnv ∨
      r'.access = .member ∧ r'.name = bareEnv ∧ u = r'.space.text ++ ['.'] := by
  rw [text_of_env hspace, r.access.text_eq] at h
  rw [Reference.text] at h hlt
  simp only [List.append_assoc] at h
  rcases append_eq_append_cons (c := 'e') h with ⟨v, rfl, hacc⟩ | ⟨w, hs, hw⟩
  · right
    rw [List.length_append, List.length_append] at hlt
    have hv : ∀ c, v.getLast? = some c → isWord c = false := by
      intro c hc
      apply hleft
      rw [List.getLast?_append, hc]
      rfl
    obtain ⟨ha, hn, rfl⟩ := inside_access hf.name hf.right hacc (by omega) hv
    exact ⟨ha, hn, rfl⟩
  · left
    have hsuffix : 'e' :: w <:+ r'.space.text := ⟨u, hs.symm⟩
    have htake := take_of_append_eq (w := 'e' :: w) (congrArg ('e' :: ·) hw.symm)
    rcases suffix_space_text hsuffix with hnil | henv | hneq
    · cases hnil
    · rw [hs, henv]
    · exact absurd htake hneq

theorem Occurs.inside {text : List Char} {s p : Nat} {r r' : Reference} (h' : Occurs text s r')
    (h : Occurs text p r) (hspace : r.space = .env) (hlt : s < p) (hin : p < s + r'.text.length) :
    (r'.access = r.access ∧ r'.name = r.name ∧ s + r'.text.length = p + r.text.length) ∨
      bareEnv ++ ['.'] <:+ text.take p ∧ r'.access = .member ∧ r'.name = bareEnv ∧
        s + r'.space.text.length + 1 = p := by
  obtain ⟨before', after', rfl, rfl, hf'⟩ := h'
  obtain ⟨before, after, ht, rfl, hf⟩ := h
  obtain ⟨u, rfl⟩ : before' <+: before := by
    apply List.prefix_of_prefix_length_le _ (List.prefix_append before (r.text ++ after))
    · omega
    · exact ⟨_, ht⟩
  rw [List.append_assoc] at ht
  have htext := List.append_cancel_left ht
  have hne : u ≠ [] := by
    rintro rfl
    simp at hlt
  have hshort : u.length < r'.text.length := by
    rw [List.length_append] at hin
    omega
  have hleft : ∀ c, u.getLast? = some c → isWord c = false := by
    intro c hc
    apply hf.left hspace
    rw [List.getLast?_append, hc]
    rfl
  rcases inside_reference hf' hspace htext hne hshort hleft with hs | ⟨ha, hn, rfl⟩
  · left
    -- both accesses are read off the text behind the same `env`
    rw [text_of_env hspace, Reference.text, hs] at htext
    simp only [List.append_assoc] at htext
    have hacc := List.append_cancel_left (List.append_cancel_left htext)
    have hread := Access.read?_eq_some.2 ⟨hf.name, after, rfl, hf.right⟩
    rw [← hacc, Access.read?_eq_some.2 ⟨hf'.name, after', rfl, hf'.right⟩] at hread
    obtain ⟨ha, hn⟩ := Prod.mk.inj (Option.some.inj hread)
    refine ⟨ha, hn, ?_⟩
    rw [text_of_env hspace, Reference.text, hs, ha, hn]
    simp only [List.length_append]
    omega
  · right
    refine ⟨?_, ha, hn, ?_⟩
    · obtain ⟨i, hi⟩ := bareEnv_suffix r'.space
      refine ⟨before' ++ i, ?_⟩
      have hb : before' ++ i ++ (bareEnv ++ ['.']) = before' ++ (r'.space.text ++ ['.']) := by
        simp [← hi]
      have hcut := (List.append_assoc before' (r'.space.text ++ ['.']) (r.text ++ after)).symm
      rw [hb, ht, hcut, List.take_left]
    · simp only [List.length_append, List.length_singleton]
      omega

/-- What stands in front of `env` in a namespace. -/
def lead : Namespace → List Char
  | .processEnv => "process.".toList
  | .importMetaEnv => "import.meta.".toList
  | .env => []

theorem space_text_eq (n : Namespace) : n.text = lead n ++ bareEnv := by
  cases n <;> rfl

theorem lead_getLast? {n : Namespace} (h : n ≠ .env) : (lead n).getLast? = some '.' := by
  cases n with
  | processEnv => rfl
  | importMetaEnv => rfl
  | env => exact absurd rfl h

/-- What stands before `env` in a longer namespace is no `env` with a dot. -/
theorem lead_of_longer {n : Namespace} (h : n ≠ .env) :
    4 ≤ (lead n).length ∧ ¬ bareEnv ++ ['.'] <:+ lead n := by
  cases n with
  | processEnv => decide
  | importMetaEnv => decide
  | env => exact absurd rfl h

def bare (r : Reference) : Reference := { r with space := .env }

theorem text_eq_bare (r : Reference) : r.text = lead r.space ++ r.bare.text := by
  rw [Reference.text, space_text_eq, text_of_env (r := r.bare) rfl, List.append_assoc]
  rfl

theorem bare_eq_self {r : Reference} (h : r.space = .env) : r.bare = r := by
  rw [bare, ← h]

/-- Behind a lead stands a dot, so what is left of the reference stands free on its left. -/
theorem Occurs.bare {text : List Char} {start : Nat} {r : Reference} (h : Occurs text start r) :
    Occurs text (start + (lead r.space).length) r.bare := by
  obtain ⟨before, after, rfl, rfl, hf⟩ := h
  refine ⟨before ++ lead r.space, after, ?_, List.length_append, hf.name, ?_, hf.right⟩
  · rw [text_eq_bare, List.append_assoc, List.append_assoc]
  · intro _ c hc
    by_cases hspace : r.space = .env
    · have hlead : lead r.space = [] := by rw [hspace]; rfl
      rw [hlead, List.append_nil] at hc
      exact hf.left hspace c hc
    · rw [List.getLast?_append, lead_getLast? hspace] at hc
      cases hc
      decide

/-- So it has a bare `env` in it that is not behind another one. -/
theorem occurs_of_longer {pre post : List Char} {r : Reference} (hspace : r.space ≠ .env)
    (hn : IsName r.name) (he : r.access.EndsBefore post) :
    ∃ p, Occurs (pre ++ (r.text ++ post)) p r.bare ∧
      ¬ bareEnv ++ ['.'] <:+ (pre ++ (r.text ++ post)).take p := by
  have ho : Occurs (pre ++ (r.text ++ post)) pre.length r :=
    ⟨pre, post, rfl, rfl, hn, fun h => absurd h hspace, he⟩
  obtain ⟨hlen, hnot⟩ := lead_of_longer hspace
  refine ⟨_, ho.bare, fun hs => hnot ?_⟩
  have hcut : (pre ++ (r.text ++ post)).take (pre.length + (lead r.space).length) =
      pre ++ lead r.space := by
    rw [text_eq_bare, ← List.length_append, List.append_assoc, ← List.append_assoc, List.take_left]
  rw [hcut] at hs
  exact List.suffix_of_suffix_length_le hs (List.suffix_append pre _) hlen

theorem found_or_chained {text : List Char} {p : Nat} {r : Reference} (hspace : r.space = .env)
    (ho : Occurs text p r) :
    (∃ q ∈ inText text, q.2.access = r.access ∧ q.2.name = r.name ∧
      q.1 + q.2.text.length = p + r.text.length) ∨
    bareEnv ++ ['.'] <:+ text.take p ∧ ∃ q ∈ inText text, q.2.access = .member ∧
      q.2.name = bareEnv ∧ q.1 + q.2.space.text.length + 1 = p := by
  have hall : r.space ∈ Namespace.all := by rw [hspace]; decide
  rcases (inText_leftmost text).maximal p r (Nat.zero_le p) hall ho with hm | ⟨q, hq, hlt, hin⟩
  · exact .inl ⟨(p, r), hm, rfl, rfl, rfl⟩
  · rcases ((inText_leftmost text).occurs q hq).2.inside ho hspace hlt hin with h | ⟨hs, h⟩
    · exact .inl ⟨q, hq, h⟩
    · exact .inr ⟨hs, q, hq, h⟩

/-- No reference is lost but the one whose `env` is the name of an earlier one, as in `env.env.A`. For
every bare `env` with an access behind it, a reference is found that ends where that one does and
has its name, unless the `env` is itself the dotted name of a reference that was found. And a
reference with a longer namespace is found in every context. -/
theorem lost_only_in_chain (text : List Char) :
    (∀ p r, r.space = .env → Occurs text p r →
      (∃ q ∈ inText text, q.2.access = r.access ∧ q.2.name = r.name ∧
        q.1 + q.2.text.length = p + r.text.length) ∨
      bareEnv ++ ['.'] <:+ text.take p ∧ ∃ q ∈ inText text, q.2.access = .member ∧
        q.2.name = bareEnv ∧ q.1 + q.2.space.text.length + 1 = p) ∧
    ∀ (pre : List Char) (r : Reference) (post : List Char), text = pre ++ (r.text ++ post) →
      r.space ≠ .env → IsName r.name → r.access.EndsBefore post →
        String.ofList r.name ∈ sortedNames text := by
  refine ⟨fun p r hspace ho => found_or_chained hspace ho, ?_⟩
  rintro pre r post rfl hspace hn he
  obtain ⟨p, ho, hnot⟩ := occurs_of_longer hspace hn he
  rcases found_or_chained rfl ho with ⟨q, hq, -, hname, -⟩ | ⟨hs, -⟩
  · rw [sortedNames, mem_ascending, names]
    exact List.mem_map.2 ⟨q, hq, congrArg String.ofList hname⟩
  · exact absurd hs hnot

theorem lost_only_in_chain_of_two :
    Occurs "env.env.A".toList 4 ⟨.env, .member, ['A']⟩ ∧ names "env.env.A".toList = ["env"] ∧
    (∃ q ∈ inText "env.env.A".toList, q.2.access = .member ∧ q.2.name = bareEnv ∧
      q.1 + q.2.space.text.length + 1 = 4) ∧
    "B" ∈ sortedNames "env.process.env('B\")c".toList := by
  -- In `env.env.A` the second `env` is the name of the first one, and its own name is lost. A
  -- call behind a longer namespace is found also there.
  have htext : inText "env.env.A".toList = [(0, ⟨.env, .member, bareEnv⟩)] := by decide
  have ho : Occurs "env.env.A".toList 4 ⟨.env, .member, ['A']⟩ := by
    refine ⟨"env.".toList, [], rfl, rfl, by decide, ?_, nofun⟩
    intro _ c hc
    cases hc
    decide
  refine ⟨ho, by rw [names, htext]; rfl, ?_, ?_⟩
  · rcases (lost_only_in_chain _).1 4 _ rfl ho with ⟨q, hq, -, hname, -⟩ | ⟨-, h⟩
    · rw [htext, List.mem_singleton] at hq
      rw [hq] at hname
      cases hname
    · exact h
  · refine (lost_only_in_chain _).2 "env.".toList ⟨.processEnv, .call .single .double, ['B']⟩ ['c']
      rfl nofun (by decide) nofun

end Reference
end EnvKeeper
