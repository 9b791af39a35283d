import EnvKeeper.Disk.Resolve

/-! What is found where a path leads. A walk that gets anywhere has gone through directories, so each
of its beginnings leads to one. -/

namespace EnvKeeper

/-- What is at the location of a target that is a file or vacant. -/
def Target.Holds (d : Disk) : Target → Prop
  | .file l bytes => d.at? l = some (.file bytes)
  | .vacant l => d.at? l = none
  | _ => True

/-- The path leads somewhere, be it to a place that is vacant. -/
def Target.Arrives (t : Target) : Prop := ∀ a, t ≠ .astray a

namespace Disk

variable {d : Disk} {p : Path} {l : Location}

theorem follow_holds {writing : Bool} {f : Location → List String → Target}
    (hf : ∀ l todo, (f l todo).Holds d) (l : Location) (todo : List String) :
    (d.follow writing f l todo).Holds d := by
  induction todo generalizing l with
  | nil => trivial
  | cons n todo ih =>
    unfold follow
    split
    · exact ih l
    split
    · exact ih l.dropLast
    split
    · trivial
    split
    · next h =>
      split
      · exact h
      · trivial
    · next h =>
      split
      · exact h
      · trivial
    · exact hf _ _
    · exact ih _

theorem walk_holds (writing : Bool) (links : Nat) (l : Location) (todo : List String) :
    (d.walk writing links l todo).Holds d := by
  induction links generalizing l todo with
  | zero => exact follow_holds (f := fun _ _ => .astray .loop) (fun _ _ => trivial) l todo
  | succ links ih => exact follow_holds ih l todo

theorem resolve_holds (d : Disk) (p : Path) : (d.resolve p).Holds d := by
  unfold resolve
  split
  · trivial
  · exact walk_holds false _ _ _

theorem at?_of_resolve {bytes : List UInt8} (h : d.resolve p = .file l bytes) :
    d.at? l = some (.file bytes) := by
  have := d.resolve_holds p
  rwa [h] at this

theorem at?_of_vacant (h : d.resolve p = .vacant l) : d.at? l = none := by
  have := d.resolve_holds p
  rwa [h] at this

theorem ne_nil_of_at?_none (h : d.at? l = none) : l ≠ [] := by
  rintro rfl
  cases h

theorem bytes?_eq_some {bytes : List UInt8} :
    d.bytes? p = some bytes ↔ ∃ l, d.resolve p = .file l bytes := by
  unfold bytes?
  cases d.resolve p <;> simp

theorem isFile_iff : d.isFile p = true ↔ ∃ l bytes, d.resolve p = .file l bytes := by
  rw [isFile, Option.isSome_iff_exists]
  simp only [bytes?_eq_some]
  exact exists_comm

theorem isDirectory_iff : d.isDirectory p = true ↔ ∃ l, d.resolve p = .directory l := by
  unfold isDirectory
  cases d.resolve p <;> simp

theorem follow_append {f : Location → List String → Target} {l : Location} {xs ys : List String}
    (hf : ∀ l xs, (f l (xs ++ ys)).Arrives → ∃ m, f l xs = .directory m) (hys : ys ≠ [])
    (h : (d.follow false f l (xs ++ ys)).Arrives) : ∃ m, d.follow false f l xs = .directory m := by
  induction xs generalizing l with
  | nil => exact ⟨l, rfl⟩
  | cons n xs ih =>
    have hne : xs ++ ys ≠ [] := fun he => hys (List.append_eq_nil_iff.1 he).2
    rw [List.cons_append] at h
    unfold follow at h ⊢
    simp only [Bool.false_eq_true, false_and, if_false, if_neg hne] at h ⊢
    split
    · next hn =>
      rw [if_pos hn] at h
      exact ih h
    next hn =>
    rw [if_neg hn] at h
    split
    · next hup =>
      rw [if_pos hup] at h
      exact ih h
    next hup =>
    rw [if_neg hup] at h
    cases he : d.at? (l ++ [n]) with
    | none =>
      rw [he] at h
      exact absurd rfl (h .missing)
    | some e =>
      rw [he] at h
      cases e with
      | file => exact absurd rfl (h .notDirectory)
      | link t =>
        simp only at h ⊢
        rw [← List.append_assoc] at h
        exact hf _ _ h
      | directory => exact ih h

/-- The names before the last ones lead to a directory. -/
theorem walk_append {links : Nat} {l : Location} {xs ys : List String} (hys : ys ≠ [])
    (h : (d.walk false links l (xs ++ ys)).Arrives) :
    ∃ m, d.walk false links l xs = .directory m := by
  induction links generalizing l xs with
  | zero =>
    exact follow_append (f := fun _ _ => .astray .loop) (fun _ _ h => absurd rfl (h .loop)) hys h
  | succ links ih => exact follow_append (fun _ _ h => ih h) hys h

theorem hasNul_mono {q : Path} (hq : q.names <+: p.names) (h : p.hasNul = false) :
    q.hasNul = false := by
  simp only [Path.hasNul, List.any_eq_false] at h ⊢
  exact fun n hn => h n (hq.subset hn)

theorem hasNul_parent (h : p.hasNul = false) : p.parent.hasNul = false :=
  hasNul_mono (List.dropLast_prefix _) h

/-- Whatever a path leads to, its parent leads to a directory. -/
theorem resolve_parent (h : (d.resolve p).Arrives) : ∃ m, d.resolve p.parent = .directory m := by
  have hnul : p.hasNul = false := by
    cases hn : p.hasNul with
    | false => rfl
    | true => exact absurd (by rw [resolve, if_pos hn]) (h .nul)
  rw [resolve, hnul] at h
  rw [resolve, hasNul_parent hnul]
  simp only [Bool.false_eq_true, if_false] at h ⊢
  by_cases hp : p.names = []
  · refine ⟨d.start p, ?_⟩
    simp [Path.parent, hp, walk, linkLimit, follow, start]
  · rw [← List.dropLast_concat_getLast hp] at h
    exact walk_append (List.cons_ne_nil _ _) h

end Disk
end EnvKeeper
