import EnvKeeper.Proofs.Disk.Filled
import EnvKeeper.Proofs.Store.Outcome

/-! How an update of a store comes to its end. It always gives a result, and only one that was written
has changed the disk. It is refused just where the way to the store is barred. -/

namespace EnvKeeper.Store

variable {s : Store} {d d' : Disk} {found : List String} {known : Option (List String)} {dryRun : Bool}

theorem Reconciled.not_error {e : Failure} (hnul : s.path.hasNul = false) :
    ¬ Reconciled s d found known dryRun (.error e) d' := by
  intro h
  obtain ⟨new, hnew⟩ := h.error_eq
  exact Disk.update_ne_nul hnul _ hnew

theorem bytes_of_place {l : Location} {old : List UInt8}
    (h : d.resolve s.path = .file l old ∨ d.resolve s.path = .vacant l ∧ old = []) :
    s.bytes d = old := by
  rcases h with h | ⟨h, rfl⟩ <;> rw [bytes, Disk.bytes?, h] <;> rfl

/-- Where a store has no place, an update leaves all as it is, and says so if it had something to add. -/
theorem Reconciled.of_place {u : Update} (h : Reconciled s d found known false (.ok u) d')
    (hplace : (d.resolve s.path).place? = none) :
    u.written = false ∧ d' = d ∧ (u.error ≠ none ↔ u.added ≠ []) := by
  cases h with
  | nothing => exact ⟨rfl, rfl, iff_of_false (fun he => he rfl) fun hne => hne rfl⟩
  | dry _ _ hdry => cases hdry
  | written _ _ _ hwrite => exact absurd hplace (Disk.place?_of_update hwrite)
  | failed _ hne => exact ⟨rfl, rfl, iff_of_true (Option.some_ne_none _) hne⟩

/-- An update returns a result, whatever is at the path of the store. Either nothing is to be added, or
the update is dry, or the block stands behind what the store held, or a reason is given; and only the
third of these changes the disk, at one place. A reason is given just where the way to the store is
barred: by a directory, by something on the way that is missing or is no directory, or by too many
links. -/
theorem reconcile_ends (hnul : s.path.hasNul = false) (d : Disk) (found : List String)
    (known : Option (List String)) (dryRun : Bool) :
    ∃ u w, (s.reconcile found known dryRun).on d = (.ok u, w) ∧
      u.added = EnvKeeper.missing found (s.declared d known) ∧
      (u = { added := [] } ∧ w.disk = d ∨
        u.added ≠ [] ∧ dryRun = true ∧ u = { added := u.added } ∧ w.disk = d ∨
        u.added ≠ [] ∧ dryRun = false ∧ u.written = true ∧ u.error = none ∧
          (∃ l old new, (d.resolve s.path = .file l old ∨ d.resolve s.path = .vacant l ∧ old = []) ∧
            new = old ++ Utf8.encode (Additions.block old.getLast?.toList u.added) ∧
            w.disk = d.put l (.file new) ∧ w.disk.resolve s.path = .file l new) ∨
        u.added ≠ [] ∧ dryRun = false ∧ u.written = false ∧ u.error ≠ none ∧ w.disk = d) ∧
      (u.added ≠ [] → dryRun = false → (u.error ≠ none ↔ d.IsBarred s.path)) := by
  have hrec := s.reconcile_reconciled found known dryRun { disk := d }
  rw [← Run.on_eq] at hrec
  generalize (s.reconcile found known dryRun).on d = out at hrec ⊢
  obtain ⟨r, w⟩ := out
  generalize hdisk : w.disk = d' at hrec
  cases hrec with
  | nul _ _ _ hwrite => exact absurd hwrite (Disk.update_ne_nul hnul _)
  | nothing h => exact ⟨_, w, rfl, h.symm, .inl ⟨rfl, hdisk⟩, fun hne => absurd rfl hne⟩
  | dry h hne hdry =>
    refine ⟨_, w, rfl, h.symm, .inr (.inl ⟨hne, hdry, rfl, hdisk⟩), fun _ hwet => ?_⟩
    rw [hdry] at hwet
    cases hwet
  | written h hne hdry hwrite =>
    obtain ⟨l, old, hplace, hput, -, hresolve⟩ := Disk.update_ok hwrite
    have htail : s.tail d = old.getLast?.toList := by rw [tail, bytes_of_place hplace]
    rw [htail] at hput hresolve
    refine ⟨_, w, rfl, h.symm, .inr (.inr (.inl ⟨hne, hdry, rfl, rfl, l, old, _, hplace, rfl, ?_⟩)),
      fun _ _ => iff_of_false (fun he => he rfl) fun hbarred => ?_⟩
    · rw [hdisk]
      exact ⟨hput, hresolve⟩
    · exact Disk.place?_of_update hwrite ((Disk.isBarred_iff hnul).1 hbarred)
  | failed h hne hdry he hwrite =>
    refine ⟨_, w, rfl, h.symm, .inr (.inr (.inr ⟨hne, hdry, rfl, Option.some_ne_none _, hdisk⟩)),
      fun _ _ => iff_of_true (Option.some_ne_none _) ?_⟩
    exact (Disk.isBarred_iff hnul).2 (Disk.update_error_iff.1 ⟨_, hwrite⟩)

theorem reconcile_ends_dangling :
    ∃ u w, ((Store.mk ⟨.relative, ["a"]⟩).reconcile ["X"] none false).on
        ⟨[(["a"], .link "b/c")], []⟩ = (.ok u, w) ∧ u.added = ["X"] ∧ u.written = false ∧
      u.error ≠ none ∧ w.disk = ⟨[(["a"], .link "b/c")], []⟩ := by
  -- a store that is a link into a directory that is missing
  obtain ⟨u, w, hrun, hadded, hends, herror⟩ := reconcile_ends (s := ⟨⟨.relative, ["a"]⟩⟩) rfl
    ⟨[(["a"], .link "b/c")], []⟩ ["X"] none false
  have hX : u.added = ["X"] := hadded.trans (by decide +kernel)
  have hne : u.added ≠ [] := by rw [hX]; nofun
  have hbarred : Disk.IsBarred ⟨[(["a"], .link "b/c")], []⟩ ⟨.relative, ["a"]⟩ :=
    (Disk.isBarred_iff rfl).2 (by decide)
  have hreason := (herror hne rfl).2 hbarred
  rcases hends with ⟨hu, -⟩ | ⟨-, hdry, -⟩ | ⟨-, -, -, hnone, -⟩ | ⟨-, -, hwritten, -, hdisk⟩
  · exact absurd (by rw [hu]) hne
  · cases hdry
  · exact absurd hnone hreason
  · exact ⟨u, w, hrun, hX, hwritten, hreason, hdisk⟩

end EnvKeeper.Store
