import EnvKeeper.Proofs.Disk.Fresh
import EnvKeeper.Proofs.Disk.Proper

/-! Two disks that differ only beneath directories of certain names. Without links and without `..` no
path comes out of such a directory again, so all paths that go through none of them lead to the same. -/

namespace EnvKeeper.Disk

variable {d e : Disk} {root p : Path} {l m base : Location} {n : String} {names q r x todo : List String}

def IsLinkFree (d : Disk) : Prop := ∀ l target, d.at? l ≠ some (.link target)

/-- The location lies below `base` and beneath a directory there that has one of the names. -/
def IsBeneath (base : Location) (names : List String) (l : Location) : Prop :=
  ∃ x, l = base ++ x ∧ ∃ n ∈ x.dropLast, n ∈ names

/-- The disks are the same but for what lies beneath directories below `base` that have one of the
names. -/
structure SameOutside (base : Location) (names : List String) (d e : Disk) : Prop where
  here : e.here = d.here
  same : ∀ l, ¬ IsBeneath base names l → e.at? l = d.at? l

theorem SameOutside.symm (h : SameOutside base names d e) : SameOutside base names e d :=
  ⟨h.here.symm, fun l hl => (h.same l hl).symm⟩

theorem isLinkFree_of_keys (h : ∀ l ∈ d.entries.keys, (match d.at? l with
    | some (.link _) => true
    | _ => false) = false) : d.IsLinkFree := by
  intro l target hl
  have hnil : l ≠ [] := by
    rintro rfl
    cases hl
  have hlink := h l ((mem_keys_iff hnil).2 (by rw [hl]; nofun))
  rw [hl] at hlink
  cases hlink

theorem isBeneath_iff : IsBeneath base names l ↔
    base <+: l ∧ ∃ n ∈ (l.drop base.length).dropLast, n ∈ names := by
  constructor
  · rintro ⟨x, rfl, hx⟩
    rw [List.drop_left]
    exact ⟨List.prefix_append base x, hx⟩
  · rintro ⟨⟨x, rfl⟩, hx⟩
    rw [List.drop_left] at hx
    exact ⟨x, rfl, hx⟩

instance (base : Location) (names : List String) (l : Location) :
    Decidable (IsBeneath base names l) := decidable_of_iff' _ isBeneath_iff

theorem sameOutside_of_keys (hhere : e.here = d.here)
    (h : ∀ l ∈ d.entries.keys ++ e.entries.keys, ¬ IsBeneath base names l → e.at? l = d.at? l) :
    SameOutside base names d e := by
  refine ⟨hhere, fun l hl => ?_⟩
  by_cases hmem : l ∈ d.entries.keys ++ e.entries.keys
  · exact h l hmem hl
  · obtain ⟨hd, he⟩ := not_or.1 (mt List.mem_append.2 hmem)
    by_cases hnil : l = []
    · rw [hnil]
      rfl
    · rw [Decidable.not_not.1 (mt (mem_keys_iff hnil).2 hd),
        Decidable.not_not.1 (mt (mem_keys_iff hnil).2 he)]

/-- A path goes the same way where the same things stand on it, and no links. -/
theorem walk_congr (hlinks : d.IsLinkFree) (hdown : ∀ n ∈ todo, (n ≠ "" ∧ n ≠ ".") ∧ n ≠ "..")
    (hsame : ∀ x, x ≠ [] → x <+: todo → e.at? (l ++ x) = d.at? (l ++ x)) (k : Nat) :
    e.walk false k l todo = d.walk false k l todo := by
  induction todo generalizing l with
  | nil => rw [walk_nil, walk_nil]
  | cons n todo ih =>
    obtain ⟨hn, hdown⟩ := List.forall_mem_cons.1 hdown
    have hstep : e.walk false k (l ++ [n]) todo = d.walk false k (l ++ [n]) todo := by
      refine ih hdown fun x hx hpre => ?_
      rw [List.append_assoc]
      exact hsame (n :: x) (List.cons_ne_nil _ _) (List.cons_prefix_cons.2 ⟨rfl, hpre⟩)
    rw [walk_cons hn, walk_cons hn, hsame [n] (List.cons_ne_nil _ _) (List.prefix_append [n] todo)]
    cases hat : d.at? (l ++ [n]) with
    | none => rfl
    | some x =>
      cases x with
      | file b => rfl
      | link target => exact absurd hat (hlinks _ _)
      | directory => exact hstep

theorem walk_directory (hlinks : d.IsLinkFree) (hdown : ∀ n ∈ todo, (n ≠ "" ∧ n ≠ ".") ∧ n ≠ "..")
    {k : Nat} (h : d.walk false k l todo = .directory m) : m = l ++ todo := by
  induction todo generalizing l with
  | nil =>
    rw [walk_nil] at h
    cases h
    rw [List.append_nil]
  | cons n todo ih =>
    obtain ⟨hn, hdown⟩ := List.forall_mem_cons.1 hdown
    rw [walk_cons hn] at h
    cases hat : d.at? (l ++ [n]) with
    | none =>
      rw [hat] at h
      simp only at h
      split at h <;> cases h
    | some x =>
      rw [hat] at h
      cases x with
      | file b =>
        simp only at h
        split at h <;> cases h
      | link target => exact absurd hat (hlinks _ _)
      | directory => rw [ih hdown h, List.append_assoc]; rfl

theorem resolve_directory (hlinks : d.IsLinkFree) (hdown : p.GoesDown)
    (h : d.resolve p = .directory l) : l = d.start p ++ p.names := by
  unfold resolve at h
  split at h
  · cases h
  · exact walk_directory hlinks hdown h

theorem mem_dropLast_mono {α : Type} {q r : List α} {a : α} (h : q <+: r)
    (ha : a ∈ q.dropLast) : a ∈ r.dropLast := by
  obtain ⟨t, rfl⟩ := h
  by_cases ht : t = []
  · rwa [ht, List.append_nil]
  · rw [List.dropLast_append_of_ne_nil ht]
    exact List.mem_append_left _ ((List.dropLast_prefix q).subset ha)

/-- What lies on a path with none of the names does not lie beneath a directory that has one. -/
theorem not_isBeneath (hr : ∀ n ∈ r.dropLast, n ∉ names)
    (hx : x <+: root.names ++ r) : ¬ IsBeneath (l ++ root.names) names (l ++ x) := by
  rintro ⟨y, hy, n, hn, hmem⟩
  rw [List.append_assoc] at hy
  rw [List.append_cancel_left hy, List.prefix_append_right_inj] at hx
  exact hr n (mem_dropLast_mono hx hn) hmem

section Same

variable (hlinks : d.IsLinkFree) (h : SameOutside (d.start root ++ root.names) names d e)
  (hr : ∀ n ∈ r.dropLast, n ∉ names) (hdown : (root.append r).GoesDown)
include hlinks h hr hdown

theorem resolve_same (hq : q <+: r) : e.resolve (root.append q) = d.resolve (root.append q) := by
  have hpre := (List.prefix_append_right_inj root.names).2 hq
  have hwalk : e.walk false linkLimit (e.start (root.append q)) (root.append q).names =
      d.walk false linkLimit (d.start (root.append q)) (root.append q).names := by
    rw [start_eq h.here]
    exact walk_congr hlinks (hdown.mono hpre)
      (fun x _ hx => h.same _ (not_isBeneath hr (hx.trans hpre))) _
  rw [resolve, resolve, hwalk]

theorem at?_same (hl : d.resolve (root.append q) = .directory l) (hq : q ++ x <+: r) :
    e.at? (l ++ x) = d.at? (l ++ x) := by
  have hpre := (List.prefix_append_right_inj root.names).2 hq
  have hdownq : (root.append q).GoesDown :=
    hdown.mono ((List.prefix_append_right_inj _).2 ((List.prefix_append q x).trans hq))
  rw [resolve_directory hlinks hdownq hl, List.append_assoc, Path.append, List.append_assoc]
  exact h.same _ (not_isBeneath hr hpre)

theorem isDirectory_same (hq : q <+: r) :
    e.isDirectory (root.append q) = d.isDirectory (root.append q) := by
  rw [isDirectory, isDirectory, resolve_same hlinks h hr hdown hq]

theorem bytes?_same (hq : q <+: r) : e.bytes? (root.append q) = d.bytes? (root.append q) := by
  rw [bytes?, bytes?, resolve_same hlinks h hr hdown hq]

theorem isThere_same (hq : q <+: r) : e.isThere (root.append q) = d.isThere (root.append q) := by
  rw [isThere, isThere, isFile, isFile, bytes?_same hlinks h hr hdown hq,
    isDirectory_same hlinks h hr hdown hq]

end Same

end EnvKeeper.Disk
