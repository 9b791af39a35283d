import EnvKeeper.Command.Reply
import EnvKeeper.Proofs.Sync.Outcome

/-! Runs that say nothing to the reader. Requests to a store, scans and syncs only note what they do;
what is said comes from the command. -/

namespace EnvKeeper

namespace Command

theorem outputOf_append (j j' : List Event) :
    outputOf (j ++ j') = outputOf j ++ outputOf j' := by
  rw [outputOf, List.map_append, String.join_append]
  rfl

theorem outputOf_notices (ns : List Notice) : outputOf (ns.map .notice) = "" := by
  induction ns with
  | nil => rfl
  | cons n ns ih =>
    rw [List.map_cons, ← List.singleton_append, outputOf_append, ih]
    rfl

end Command

namespace Run

variable {α β : Type}

def Silent (r : Run α) : Prop :=
  ∀ w, Command.outputOf (r.out w).2.journal = Command.outputOf w.journal

theorem silent_pure (a : α) : Silent (pure a : Run α) := fun _ => rfl

theorem silent_throw (e : Failure) : Silent (throw e : Run α) := fun _ => rfl

theorem silent_disk : Silent disk := fun _ => rfl

theorem silent_setDisk (d : Disk) : Silent (setDisk d) := fun _ => rfl

theorem silent_notes (ns : List Notice) : Silent (sayAll (ns.map .notice)) := by
  intro w
  rw [out_sayAll, Command.outputOf_append, Command.outputOf_notices, String.append_empty]

theorem silent_note (n : Notice) : Silent (note n) := silent_notes [n]

theorem Silent.bind {r : Run α} {f : α → Run β} (h : Silent r) (hf : ∀ a, Silent (f a)) :
    Silent (r >>= f) := by
  intro w
  have hr := h w
  rw [out_bind]
  generalize r.out w = out at hr ⊢
  obtain ⟨e | a, w'⟩ := out
  · exact hr
  · exact (hf a w').trans hr

end Run

open Run

namespace Store

variable (s : Store)

theorem silent_load : Silent s.load := by
  unfold load
  exact silent_disk.bind fun _ => (silent_notes _).bind fun _ => silent_pure _

theorem silent_missing (found : List String) (known : Option (List String)) :
    Silent (s.missing found known) := by
  cases known with
  | some names => exact silent_pure _
  | none => exact s.silent_load.bind fun _ => silent_pure _

theorem silent_ensure : Silent s.ensure := by
  unfold ensure
  refine silent_disk.bind fun _ => ?_
  split
  · exact silent_pure _
  refine (silent_note _).bind fun _ => silent_disk.bind fun _ => ?_
  refine (silent_setDisk _).bind fun _ => ?_
  split
  · exact (silent_throw _).bind fun _ => silent_pure _
  · exact (silent_throw _).bind fun _ => silent_pure _
  · exact (silent_setDisk _).bind fun _ => silent_pure _

theorem silent_prepare (dryRun : Bool) : Silent (s.prepare dryRun) := by
  cases dryRun with
  | true => exact fun _ => rfl
  | false =>
    intro w
    have h := s.silent_ensure w
    unfold prepare
    simp only [Bool.false_eq_true, if_false, out_tryCatch, out_bind]
    generalize s.ensure.out w = out at h ⊢
    obtain ⟨e | found, w'⟩ := out
    · match e with
      | .disk (.refused cause path) => exact (silent_note _ w').trans h
      | .disk .nul => exact h
      | .undecodable _ => exact h
      | .pattern _ => exact h
    · exact h

theorem silent_reconcile (found : List String) (known : Option (List String)) (dryRun : Bool) :
    Silent (s.reconcile found known dryRun) := by
  refine (s.silent_missing found known).bind fun _ => ?_
  split
  · exact (silent_note _).bind fun _ => silent_pure _
  split
  · exact silent_pure _
  refine silent_disk.bind fun _ => ?_
  split
  · exact (silent_setDisk _).bind fun _ => (silent_note _).bind fun _ => silent_pure _
  · exact silent_throw _
  · exact (silent_note _).bind fun _ => silent_pure _

end Store

theorem silent_scan (root : Path) (sel : Selection) : Silent (scan root sel) := by
  refine silent_disk.bind fun _ => ?_
  split
  · exact silent_throw _
  · exact (silent_note _).bind fun _ => (silent_notes _).bind fun _ => silent_pure _

theorem silent_sync (q : SyncRequest) : Silent (sync q) := by
  refine (q.target.silent_prepare _).bind fun _ => q.target.silent_load.bind fun _ => ?_
  refine (silent_note _).bind fun _ => (silent_scan _ _).bind fun _ => ?_
  exact (q.target.silent_reconcile _ _ _).bind fun _ => silent_pure _

end EnvKeeper
