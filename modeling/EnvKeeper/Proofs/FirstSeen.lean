import Mathlib.Data.List.Basic
import Mathlib.Data.List.Nodup

/-! A list without its repeats: each member once, in the order of their first places. -/

namespace EnvKeeper

variable {α : Type} [DecidableEq α]

structure IsFirstSeen (l seen : List α) : Prop where
  nodup : seen.Nodup
  mem : ∀ a, a ∈ seen ↔ a ∈ l
  order : seen.Pairwise fun a b => l.idxOf a < l.idxOf b

theorem idxOf_lt_of_filter {p : α → Bool} {a b : α} (ha : p a = true) (hb : p b = true) {l : List α}
    (h : (l.filter p).idxOf a < (l.filter p).idxOf b) : l.idxOf a < l.idxOf b := by
  induction l with
  | nil => exact h
  | cons c l ih =>
    by_cases hc : p c = true
    · rw [List.filter_cons_of_pos hc] at h
      simp only [List.idxOf_cons] at h ⊢
      grind
    · rw [List.filter_cons_of_neg hc] at h
      have hca : c ≠ a := fun he => hc (he ▸ ha)
      have hcb : c ≠ b := fun he => hc (he ▸ hb)
      rw [List.idxOf_cons_ne _ hca, List.idxOf_cons_ne _ hcb]
      exact Nat.succ_lt_succ (ih h)

theorem isFirstSeen_eraseDups (l : List α) : IsFirstSeen l l.eraseDups := by
  induction hn : l.length using Nat.strongRecOn generalizing l with
  | ind n ih =>
    cases l with
    | nil => exact ⟨.nil, fun a => Iff.rfl, .nil⟩
    | cons a l =>
      have hlen : (l.filter fun b => !b == a).length < n := by
        have := List.length_filter_le (fun b => !b == a) l
        rw [← hn, List.length_cons]
        omega
      have h := ih _ hlen (l.filter fun b => !b == a) rfl
      have hne (b : α) (hb : b ∈ (l.filter fun b => !b == a).eraseDups) : b ≠ a := by
        simpa using (List.mem_filter.1 ((h.mem b).1 hb)).2
      rw [List.eraseDups_cons]
      refine ⟨List.nodup_cons.2 ⟨fun hm => hne a hm rfl, h.nodup⟩, fun b => ?_, ?_⟩
      · rw [← List.eraseDups_cons, List.mem_eraseDups]
      refine List.pairwise_cons.2 ⟨fun b hb => ?_, ?_⟩
      · rw [List.idxOf_cons_self, List.idxOf_cons_ne _ (hne b hb).symm]
        exact Nat.succ_pos _
      · refine h.order.imp_of_mem fun {b c} hb hc hlt => ?_
        rw [List.idxOf_cons_ne _ (hne b hb).symm, List.idxOf_cons_ne _ (hne c hc).symm]
        apply Nat.succ_lt_succ
        exact idxOf_lt_of_filter (p := fun b => !b == a) (by simpa using hne b hb)
          (by simpa using hne c hc) hlt

/-- What comes once more is seen already; what is new is seen last. -/
theorem IsFirstSeen.concat {l seen : List α} (h : IsFirstSeen l seen) (a : α) :
    IsFirstSeen (l ++ [a]) (if a ∈ seen then seen else seen ++ [a]) := by
  have hold {b : α} (hb : b ∈ seen) : (l ++ [a]).idxOf b = l.idxOf b :=
    List.idxOf_append_of_mem ((h.mem b).1 hb)
  have horder : seen.Pairwise fun b c => (l ++ [a]).idxOf b < (l ++ [a]).idxOf c :=
    h.order.imp_of_mem fun hb hc hlt => by rwa [hold hb, hold hc]
  split
  · next ha =>
    refine ⟨h.nodup, fun b => ?_, horder⟩
    rw [h.mem, List.mem_append, List.mem_singleton]
    exact (or_iff_left_of_imp fun hb => hb ▸ (h.mem a).1 ha).symm
  · next ha =>
    refine ⟨?_, fun b => ?_, ?_⟩
    · exact List.nodup_append.2 ⟨h.nodup, List.nodup_singleton a, fun b hb c hc he =>
        ha (List.mem_singleton.1 hc ▸ he ▸ hb)⟩
    · rw [List.mem_append, List.mem_append, h.mem]
    · refine List.pairwise_append.2 ⟨horder, List.pairwise_singleton _ a, fun b hb c hc => ?_⟩
      rw [List.mem_singleton.1 hc, hold hb,
        List.idxOf_append_of_notMem (mt (h.mem a).2 ha)]
      have := List.idxOf_lt_length_of_mem ((h.mem b).1 hb)
      omega

end EnvKeeper
