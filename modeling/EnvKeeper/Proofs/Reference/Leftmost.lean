import EnvKeeper.Proofs.Reference.Occurrence
import Mathlib.Data.List.Sort

/-! The search resumes behind each reference it has found. What it finds is the leftmost selection of
the references that occur in a text: they do not overlap, and every other one starts inside one of
them. No other list is like that. -/

namespace EnvKeeper.Reference

/-- References with their places, found in `text` from `place` on. Each ends before the next one
starts, and none is passed over unless it starts inside one that was found. -/
structure Leftmost (spaces : List Namespace) (text : List Char) (place : Nat)
    (found : List (Nat × Reference)) : Prop where
  occurs : ∀ p ∈ found, p.2.space ∈ spaces ∧ Occurs text p.1 p.2
  later : ∀ p ∈ found, place ≤ p.1
  disjoint : found.Pairwise fun p q => p.1 + p.2.text.length ≤ q.1
  maximal : ∀ start r, place ≤ start → r.space ∈ spaces → Occurs text start r →
    (start, r) ∈ found ∨ ∃ p ∈ found, p.1 < start ∧ start < p.1 + p.2.text.length

theorem text_length_pos (r : Reference) : 0 < r.text.length :=
  List.length_pos_iff.2 r.text_ne_nil

namespace Leftmost

variable {spaces : List Namespace} {text : List Char} {place : Nat}
  {l l' : List (Nat × Reference)}

theorem skip (h : Leftmost spaces text (place + 1) l)
    (hn : ∀ r, r.space ∈ spaces → ¬ Occurs text place r) : Leftmost spaces text place l where
  occurs := h.occurs
  later p hp := (Nat.le_succ place).trans (h.later p hp)
  disjoint := h.disjoint
  maximal start r hs hr ho := by
    rcases Nat.eq_or_lt_of_le hs with rfl | hs
    · exact absurd ho (hn r hr)
    · exact h.maximal start r hs hr ho

theorem take {r : Reference} (hr : r.space ∈ spaces) (ho : Occurs text place r)
    (h : Leftmost spaces text (place + r.text.length) l) :
    Leftmost spaces text place ((place, r) :: l) where
  occurs := List.forall_mem_cons.2 ⟨⟨hr, ho⟩, h.occurs⟩
  later := List.forall_mem_cons.2
    ⟨Nat.le_refl _, fun p hp => (Nat.le_add_right _ _).trans (h.later p hp)⟩
  disjoint := List.pairwise_cons.2 ⟨h.later, h.disjoint⟩
  maximal start r' hs hr' ho' := by
    rcases Nat.eq_or_lt_of_le hs with rfl | hs
    · rw [ho'.unique ho]
      exact .inl List.mem_cons_self
    rcases Nat.lt_or_ge start (place + r.text.length) with hl | hl
    · exact .inr ⟨(place, r), List.mem_cons_self, hs, hl⟩
    · rcases h.maximal start r' hl hr' ho' with hm | ⟨p, hp, hlt⟩
      · exact .inl (List.mem_cons_of_mem _ hm)
      · exact .inr ⟨p, List.mem_cons_of_mem _ hp, hlt⟩

theorem apart (h : Leftmost spaces text place l) {p q : Nat × Reference} (hp : p ∈ l) (hq : q ∈ l)
    (hlt : p.1 < q.1) : p.1 + p.2.text.length ≤ q.1 := by
  have hd := List.pairwise_iff_getElem.1 h.disjoint
  obtain ⟨i, hi, rfl⟩ := List.getElem_of_mem hp
  obtain ⟨j, hj, rfl⟩ := List.getElem_of_mem hq
  rcases Nat.lt_trichotomy i j with hij | rfl | hij
  · exact hd i j hi hj hij
  · exact absurd hlt (Nat.lt_irrefl _)
  · have := hd j i hj hi hij
    omega

theorem mem_iff (h : Leftmost spaces text place l) (h' : Leftmost spaces text place l')
    (start : Nat) (r : Reference) : (start, r) ∈ l ↔ (start, r) ∈ l' := by
  -- by induction on the place: what is passed over starts inside one found before it, and that
  -- one is in both lists
  induction start using Nat.strongRecOn generalizing r with
  | ind start ih =>
    have mem_of (l l' : List (Nat × Reference)) (h : Leftmost spaces text place l)
        (h' : Leftmost spaces text place l')
        (ih : ∀ s < start, ∀ r, (s, r) ∈ l' → (s, r) ∈ l) (hm : (start, r) ∈ l) :
        (start, r) ∈ l' := by
      obtain ⟨hr, ho⟩ := h.occurs _ hm
      rcases h'.maximal start r (h.later _ hm) hr ho with hm' | ⟨p, hp, hlt, hin⟩
      · exact hm'
      · have hap : p.1 + p.2.text.length ≤ start := h.apart (ih p.1 hlt p.2 hp) hm hlt
        omega
    exact ⟨mem_of l l' h h' fun s hs r => (ih s hs r).2, mem_of l' l h' h fun s hs r => (ih s hs r).1⟩

theorem increasing (h : Leftmost spaces text place l) : l.Pairwise fun p q => p.1 < q.1 :=
  h.disjoint.imp fun {p _} hpq =>
    Nat.lt_of_lt_of_le (Nat.lt_add_of_pos_right p.2.text_length_pos) hpq

theorem unique (h : Leftmost spaces text place l) (h' : Leftmost spaces text place l') : l = l' := by
  have : Std.Irrefl fun p q : Nat × Reference => p.1 < q.1 := ⟨fun p => Nat.lt_irrefl p.1⟩
  have : Std.Antisymm fun p q : Nat × Reference => p.1 < q.1 :=
    ⟨fun _ _ hpq hqp => absurd hqp (Nat.lt_asymm hpq)⟩
  exact h.increasing.eq_of_mem_iff h'.increasing fun p => mem_iff h h' p.1 p.2

end Leftmost

/-- The first `skip` characters behind `before` are taken by a reference already found. -/
theorem search_leftmost (spaces : List Namespace) (before s : List Char) (skip : Nat) :
    Leftmost spaces (before ++ s) (before.length + skip)
      (search spaces before.getLast? before.length skip s) := by
  induction s generalizing before skip with
  | nil =>
    refine ⟨by simp [search], by simp [search], by simp [search], ?_⟩
    intro start r hs _ ho
    have hl := ho.add_length_le
    have := r.text_length_pos
    rw [List.append_nil] at hl
    omega
  | cons c s ih =>
    have hnext := ih (before ++ [c])
    rw [List.append_assoc, List.singleton_append, List.getLast?_concat, List.length_append,
      List.length_singleton] at hnext
    cases skip with
    | succ k =>
      have h := hnext k
      rw [show before.length + 1 + k = before.length + (k + 1) by omega] at h
      exact h
    | zero =>
      rw [search]
      cases hr : read? spaces before.getLast? (c :: s) with
      | none =>
        refine (hnext 0).skip fun r hm ho => ?_
        rw [read?_iff_occurs.2 ⟨hm, ho⟩] at hr
        cases hr
      | some r =>
        obtain ⟨hm, ho⟩ := read?_iff_occurs.1 hr
        have h := hnext (r.text.length - 1)
        have := r.text_length_pos
        rw [show before.length + 1 + (r.text.length - 1) = before.length + r.text.length by omega]
          at h
        exact .take hm ho h

theorem inText_leftmost (text : List Char) : Leftmost Namespace.all text 0 (inText text) :=
  search_leftmost Namespace.all [] text 0

/-- The names in a text are those of the references that occur in it, less those that start inside
an earlier one. A place has at most one reference, so there is one such list. -/
theorem names_leftmost_unique (text : List Char) :
    (∀ start r r', Occurs text start r → Occurs text start r' → r = r') ∧
    (∃ found, Leftmost Namespace.all text 0 found ∧
      names text = found.map fun p => String.ofList p.2.name) ∧
    ∀ found, Leftmost Namespace.all text 0 found → found = inText text :=
  ⟨fun _ _ _ h h' => h.unique h', ⟨inText text, inText_leftmost text, rfl⟩,
    fun _ h => h.unique (inText_leftmost text)⟩

end EnvKeeper.Reference
