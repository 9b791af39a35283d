import EnvKeeper.Proofs.Reference.Chain

/-! The longer namespaces add nothing to the bare one. Each of them ends in `env`, so a search for bare
`env` alone finds the ends of the references that the whole search finds. It finds no others, and no
fewer, though it starts each of them later and so never passes over the text in the same steps. -/

namespace EnvKeeper.Reference

def bareAt (p : Nat × Reference) : Nat × Reference := (p.1 + (lead p.2.space).length, p.2.bare)

theorem bareAt_end (p : Nat × Reference) :
    (bareAt p).1 + (bareAt p).2.text.length = p.1 + p.2.text.length := by
  rw [text_eq_bare p.2, List.length_append, ← Nat.add_assoc]
  rfl

/-- What the whole selection passes over starts inside one of its references, and then it has that
one's end or starts inside what is left of it. -/
theorem Leftmost.bare {text : List Char} {place : Nat} {l : List (Nat × Reference)}
    (h : Leftmost Namespace.all text place l) : Leftmost [.env] text place (l.map bareAt) where
  occurs := by
    intro p hp
    obtain ⟨q, hq, rfl⟩ := List.mem_map.1 hp
    exact ⟨List.mem_singleton_self _, (h.occurs q hq).2.bare⟩
  later := by
    intro p hp
    obtain ⟨q, hq, rfl⟩ := List.mem_map.1 hp
    exact (h.later q hq).trans (Nat.le_add_right _ _)
  disjoint := by
    refine List.pairwise_map.2 (h.disjoint.imp fun {p q} hpq => ?_)
    rw [bareAt_end]
    exact hpq.trans (Nat.le_add_right _ _)
  maximal := by
    intro start r hs hr ho
    have hspace : r.space = .env := List.mem_singleton.1 hr
    have hall : r.space ∈ Namespace.all := by rw [hspace]; decide
    rcases h.maximal start r hs hall ho with hm | ⟨q, hq, hlt, hin⟩
    · refine .inl (List.mem_map.2 ⟨(start, r), hm, ?_⟩)
      rw [bareAt, bare_eq_self hspace, hspace]
      rfl
    have hlen : q.2.space.text.length = (lead q.2.space).length + 3 := by
      rw [space_text_eq, List.length_append]
      rfl
    rcases (h.occurs q hq).2.inside ho hspace hlt hin with ⟨ha, hn, hend⟩ | ⟨-, -, -, hplace⟩
    · have hbare : q.2.bare = r := by
        rw [Reference.bare, ha, hn, ← hspace]
      have hplace : q.1 + (lead q.2.space).length + r.text.length = start + r.text.length := by
        rw [← hend, ← bareAt_end, bareAt, hbare]
      refine .inl (List.mem_map.2 ⟨q, hq, ?_⟩)
      rw [bareAt, hbare, Nat.add_right_cancel hplace]
    · refine .inr ⟨bareAt q, List.mem_map_of_mem hq, ?_, ?_⟩
      · rw [bareAt]
        omega
      · rw [bareAt_end]
        exact hin

theorem search_bare (text : List Char) :
    search [.env] none 0 0 text = (inText text).map bareAt :=
  (search_leftmost [.env] [] text 0).unique (inText_leftmost text).bare

/-- A search for bare `env` alone gives the same names in the same order, repeats included. -/
theorem names_of_bare (text : List Char) :
    names text = (search [.env] none 0 0 text).map fun (_, r) => String.ofList r.name := by
  rw [search_bare, List.map_map]
  rfl

end EnvKeeper.Reference
