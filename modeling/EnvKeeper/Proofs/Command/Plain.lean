import EnvKeeper.Command.Perform
import EnvKeeper.Proofs.Disk.Filled
import EnvKeeper.Proofs.Glob.Pattern

/-! The paths on a command line. What is read from a text is plain, and so is the store that is meant
in the end, whichever of the ways to name it was taken. -/

namespace EnvKeeper

namespace Path

theorem isPlain_ofText (s : String) : (ofText s).IsPlain := by
  intro n hn
  have h := List.of_mem_filter hn
  simpa using h

theorem IsPlain.append {p : Path} (h : p.IsPlain) {names : List String}
    (hn : ∀ n ∈ names, n ≠ "" ∧ n ≠ ".") : (p.append names).IsPlain :=
  List.forall_mem_append.2 ⟨h, hn⟩

end Path

theorem SyncRequest.isPlain_target {q : SyncRequest} (hroot : q.root.IsPlain)
    (hstore : ∀ p ∈ q.store, p.IsPlain) : q.target.path.IsPlain := by
  unfold target
  split
  · next p hp => exact hstore p (by rw [hp]; rfl)
  · exact hroot.append (by decide)

namespace Command

theorem Given.isPlain_path? {g : Given} {o : Opt} {p : Option Path} (h : g.path? o = .ok p) :
    ∀ x ∈ p, x.IsPlain := by
  unfold path? at h
  split at h
  · cases h
    exact nofun
  · split at h
    · cases h
    · cases h
      intro x hx
      cases hx
      exact Path.isPlain_ofText _

theorem isPlain_chosenStore {option : Option Path} (h : ∀ p ∈ option, p.IsPlain)
    (preset : Option String) : ∀ p ∈ chosenStore option preset, p.IsPlain := by
  cases option with
  | some p => exact h
  | none =>
    intro p hp
    obtain ⟨v, -, hv⟩ := Option.bind_eq_some_iff.1 hp
    split at hv
    · cases hv
    · cases hv
      exact Path.isPlain_ofText v

theorem Verb.isPlain_of_check {v : Verb} {g : Given} {option : Option Path} {selection : Selection}
    (h : v.task g = .ok (.check option selection)) : ∀ p ∈ option, p.IsPlain := by
  unfold task at h
  split at h
  · cases h
  cases v with
  | scan =>
    obtain ⟨output, -, h⟩ := bind_eq_ok h
    obtain ⟨-, -, h⟩ := bind_eq_ok h
    obtain ⟨format, -, h⟩ := bind_eq_ok h
    cases h
  | sync =>
    obtain ⟨store, -, h⟩ := bind_eq_ok h
    obtain ⟨-, -, h⟩ := bind_eq_ok h
    cases h
  | check =>
    obtain ⟨store, hstore, h⟩ := bind_eq_ok h
    obtain ⟨-, -, h⟩ := bind_eq_ok h
    cases h
    exact Given.isPlain_path? hstore

theorem Task.isPlain_of_check {args : List String} {option : Option Path} {selection : Selection}
    (h : Task.read args = .ok (.check option selection)) : ∀ p ∈ option, p.IsPlain := by
  unfold read at h
  split at h
  · cases h
  split at h
  · unfold ofStray at h
    split at h
    · cases h
    split at h
    · cases h
    split at h <;> cases h
  · next v _ =>
    split at h
    · cases h
    · next g _ =>
      cases ht : v.task g with
      | error m => rw [ht] at h; cases h
      | ok t =>
        rw [ht] at h
        cases h
        exact Verb.isPlain_of_check ht

theorem Request.isPlain_of_check {args : List String} {root option : Option Path} {verbose : Bool}
    {selection : Selection} (h : Request.read args = .ok ⟨root, verbose, .check option selection⟩) :
    (∀ p ∈ root, p.IsPlain) ∧ ∀ p ∈ option, p.IsPlain := by
  unfold read at h
  split at h
  · cases h
  next g _ =>
  split at h
  · cases h
  split at h
  · cases h
  next path hpath =>
  cases ht : Task.read g.others with
  | error m => rw [ht] at h; cases h
  | ok t =>
    rw [ht] at h
    cases h
    exact ⟨Given.isPlain_path? hpath, Task.isPlain_of_check ht⟩

/-- The sync with the options of a command line, from the directory `here`. -/
def syncOf (root option : Option Path) (preset : Option String) (selection : Selection)
    (here : Location) (dryRun : Bool) : SyncRequest :=
  { root := root.getD ⟨.root, here⟩, store := chosenStore option preset, selection, dryRun }

theorem isPlain_syncOf {d : Disk} (hd : d.IsProper) {root option : Option Path}
    (hroot : ∀ p ∈ root, p.IsPlain) (hoption : ∀ p ∈ option, p.IsPlain) (preset : Option String)
    (selection : Selection) (dryRun : Bool) :
    (syncOf root option preset selection d.here dryRun).target.path.IsPlain := by
  refine SyncRequest.isPlain_target ?_ (isPlain_chosenStore hoption preset)
  cases root with
  | some p => exact hroot p rfl
  | none =>
    intro n hn
    have hname := hd.isEntryName (l := d.here) (by rw [hd.here]; nofun) n hn
    exact ⟨hname.ne_empty, hname.ne_dot⟩

end Command
end EnvKeeper
