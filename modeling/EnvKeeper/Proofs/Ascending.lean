import EnvKeeper.Store
import Mathlib.Data.String.Basic
import Mathlib.Order.Defs.Unbundled

/-! Insertion keeps a list strictly ascending, so what is missing from a store comes in order and
without repeats. -/

namespace EnvKeeper

section

variable {α : Type} [LT α] [DecidableLT α] [DecidableEq α] [IsStrictTotalOrder α (· < ·)]

theorem pairwise_insertAscending {x : α} {l : List α} (h : l.Pairwise (· < ·)) :
    (insertAscending x l).Pairwise (· < ·) := by
  induction l with
  | nil => exact List.pairwise_singleton _ x
  | cons y l ih =>
    obtain ⟨hy, hl⟩ := List.pairwise_cons.1 h
    unfold insertAscending
    split
    · next hxy =>
      refine List.pairwise_cons.2 ⟨fun z hz => ?_, h⟩
      rcases List.mem_cons.1 hz with rfl | hz
      · exact hxy
      · exact trans_of (· < ·) hxy (hy z hz)
    split
    · exact h
    · next hxy hne =>
      refine List.pairwise_cons.2 ⟨fun z hz => ?_, ih hl⟩
      rcases mem_insertAscending.1 hz with rfl | hz
      · rcases trichotomous_of (· < ·) z y with hlt | heq | hgt
        · exact absurd hlt hxy
        · exact absurd heq hne
        · exact hgt
      · exact hy z hz

theorem pairwise_ascending (l : List α) : (ascending l).Pairwise (· < ·) := by
  induction l with
  | nil => exact .nil
  | cons x l ih => exact pairwise_insertAscending ih

end

theorem pairwise_missing (found declared : List String) :
    (missing found declared).Pairwise (· < ·) :=
  pairwise_ascending _

theorem nodup_missing (found declared : List String) : (missing found declared).Nodup :=
  (pairwise_missing found declared).imp fun h => ne_of_lt h

end EnvKeeper
