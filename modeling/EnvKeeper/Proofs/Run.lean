import EnvKeeper.Run

/-! How a run goes on from a desk: one equation for each thing that a run can do. -/

namespace EnvKeeper.Run

variable {α β : Type}

/-- How a run ends that starts from `w`. -/
def out (r : Run α) (w : Desk) : Except Failure α × Desk := Id.run (r.run.run w)

theorem on_eq (r : Run α) (d : Disk) : r.on d = r.out { disk := d } := rfl

@[simp] theorem out_pure (a : α) (w : Desk) : (pure a : Run α).out w = (.ok a, w) := rfl

@[simp] theorem out_throw (e : Failure) (w : Desk) : (throw e : Run α).out w = (.error e, w) := rfl

@[simp] theorem out_disk (w : Desk) : disk.out w = (.ok w.disk, w) := rfl

@[simp] theorem out_setDisk (d : Disk) (w : Desk) :
    (setDisk d).out w = (.ok (), { w with disk := d }) := rfl

@[simp] theorem out_say (e : Event) (w : Desk) :
    (say e).out w = (.ok (), { w with journal := w.journal ++ [e] }) := rfl

@[simp] theorem out_note (n : Notice) (w : Desk) :
    (note n).out w = (.ok (), { w with journal := w.journal ++ [.notice n] }) := rfl

@[simp] theorem out_sayAll (es : List Event) (w : Desk) :
    (sayAll es).out w = (.ok (), { w with journal := w.journal ++ es }) := rfl

theorem out_bind (r : Run α) (f : α → Run β) (w : Desk) :
    (r >>= f).out w =
      match r.out w with
      | (.ok a, w') => (f a).out w'
      | (.error e, w') => (.error e, w') := by
  unfold out ExceptT.run StateT.run Id.run
  simp only [bind, ExceptT.bind, ExceptT.mk, StateT.bind, ExceptT.bindCont]
  cases r w with
  | mk result w' => cases result <;> rfl

theorem out_bind_ok {r : Run α} {a : α} {w w' : Desk} (h : r.out w = (.ok a, w'))
    (f : α → Run β) : (r >>= f).out w = (f a).out w' := by
  rw [out_bind, h]

theorem out_bind_error {r : Run α} {e : Failure} {w w' : Desk} (h : r.out w = (.error e, w'))
    (f : α → Run β) : (r >>= f).out w = (.error e, w') := by
  rw [out_bind, h]

theorem out_tryCatch (r : Run α) (f : Failure → Run α) (w : Desk) :
    (tryCatch r f).out w =
      match r.out w with
      | (.ok a, w') => (.ok a, w')
      | (.error e, w') => (f e).out w' := by
  unfold out ExceptT.run StateT.run Id.run
  simp only [tryCatch, tryCatchThe, MonadExceptOf.tryCatch, ExceptT.tryCatch, ExceptT.mk, bind,
    StateT.bind]
  cases r w with
  | mk result w' => cases result <;> rfl

/-- A run that ends well has gone through its first part. -/
theorem out_bind_eq_ok {r : Run α} {f : α → Run β} {b : β} {w w' : Desk}
    (h : (r >>= f).out w = (.ok b, w')) :
    ∃ a w₁, r.out w = (.ok a, w₁) ∧ (f a).out w₁ = (.ok b, w') := by
  rw [out_bind] at h
  match hr : r.out w, h with
  | (.ok a, w₁), h => exact ⟨a, w₁, rfl, h⟩
  | (.error e, w₁), h => cases h

/-- The run leaves the disk as it is. -/
def Quiet (r : Run α) : Prop := ∀ w, (r.out w).2.disk = w.disk

theorem quiet_pure (a : α) : Quiet (pure a : Run α) := fun _ => rfl

theorem quiet_throw (e : Failure) : Quiet (throw e : Run α) := fun _ => rfl

theorem quiet_disk : Quiet disk := fun _ => rfl

theorem quiet_say (e : Event) : Quiet (say e) := fun _ => rfl

theorem quiet_sayAll (es : List Event) : Quiet (sayAll es) := fun _ => rfl

/-- What follows and is quiet does not matter for the disk. -/
theorem disk_bind_quiet {r : Run α} {f : α → Run β} (hf : ∀ a, Quiet (f a)) (w : Desk) :
    ((r >>= f).out w).2.disk = (r.out w).2.disk := by
  rw [out_bind]
  obtain ⟨e | a, w'⟩ := r.out w
  · rfl
  · exact hf a w'

theorem Quiet.bind {r : Run α} {f : α → Run β} (h : Quiet r) (hf : ∀ a, Quiet (f a)) :
    Quiet (r >>= f) := by
  intro w
  rw [disk_bind_quiet hf, h]

/-- What the run returns and leaves on the disk does not depend on what was noted before. -/
def Steady (r : Run α) : Prop :=
  ∀ w w', w.disk = w'.disk → (r.out w).1 = (r.out w').1 ∧ (r.out w).2.disk = (r.out w').2.disk

theorem steady_pure (a : α) : Steady (pure a : Run α) := fun _ _ h => ⟨rfl, h⟩

theorem steady_throw (e : Failure) : Steady (throw e : Run α) := fun _ _ h => ⟨rfl, h⟩

theorem steady_disk : Steady disk := fun _ _ h => ⟨congrArg Except.ok h, h⟩

theorem steady_setDisk (d : Disk) : Steady (setDisk d) := fun _ _ _ => ⟨rfl, rfl⟩

theorem steady_say (e : Event) : Steady (say e) := fun _ _ h => ⟨rfl, h⟩

theorem steady_sayAll (es : List Event) : Steady (sayAll es) := fun _ _ h => ⟨rfl, h⟩

theorem Steady.bind {r : Run α} {f : α → Run β} (h : Steady r) (hf : ∀ a, Steady (f a)) :
    Steady (r >>= f) := by
  intro w w' hw
  obtain ⟨hres, hdisk⟩ := h w w' hw
  rw [out_bind, out_bind]
  generalize r.out w = x at hres hdisk
  generalize r.out w' = y at hres hdisk
  obtain ⟨e | a, v⟩ := x <;> obtain ⟨e' | a', v'⟩ := y <;> cases hres
  · exact ⟨rfl, hdisk⟩
  · exact hf a v v' hdisk

end EnvKeeper.Run
