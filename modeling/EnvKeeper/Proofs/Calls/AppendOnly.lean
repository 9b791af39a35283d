import EnvKeeper.Proofs.Calls.Basic

/-! Runs of calls. They only add to a disk, unless a store is made over a file; and on a disk where
everything lies in a directory that takes a path that goes up behind another name. -/

namespace EnvKeeper

namespace SyncRequest

theorem writes_eq (q : SyncRequest) (d : Disk) :
    q.writes d = [] ∨ q.writes d = [.make q.target] ∨
      ∃ found known, q.writes d = [.make q.target, .add q.target found known] := by
  unfold writes
  split
  · exact .inl rfl
  split
  · exact .inr (.inl rfl)
  · split
    · exact .inr (.inl rfl)
    · exact .inr (.inr ⟨_, _, rfl⟩)

end SyncRequest

namespace Call

theorem writes_of_sync? (c : Call) (d : Disk) :
    ((c.sync? d.here).map (·.writes d)).getD [] = [] ∨
      ∃ q, c.sync? d.here = some q ∧ ((c.sync? d.here).map (·.writes d)).getD [] = q.writes d := by
  cases c.sync? d.here with
  | none => exact .inl rfl
  | some q => exact .inr ⟨q, rfl, rfl⟩

/-- A store is made at the start of a call, and added to at its end. -/
theorem writes_eq (c : Call) (d : Disk) :
    c.writes d = [] ∨ ∃ s, c.writes d = [.make s] ∨
      ∃ found known, c.writes d = [.add s found known] ∨
        c.writes d = [.make s, .add s found known] := by
  have hsync (q : SyncRequest) : q.writes d = [] ∨ ∃ s, q.writes d = [.make s] ∨
      ∃ found known, q.writes d = [.add s found known] ∨
        q.writes d = [.make s, .add s found known] := by
    rcases q.writes_eq d with h | h | ⟨found, known, h⟩
    · exact .inl h
    · exact .inr ⟨_, .inl h⟩
    · exact .inr ⟨_, .inr ⟨found, known, .inr h⟩⟩
  cases c with
  | ensure s => exact .inr ⟨s, .inl rfl⟩
  | reconcile s found known dryRun =>
    cases dryRun with
    | true => exact .inl rfl
    | false => exact .inr ⟨s, .inr ⟨found, known, .inl rfl⟩⟩
  | sync q => exact hsync q
  | command args preset h =>
    rcases (command args preset h).writes_of_sync? d with hw | ⟨q, -, hw⟩
    · exact .inl hw
    · have hw : (command args preset h).writes d = q.writes d := hw
      rw [hw]
      exact hsync q
  | _ => exact .inl rfl

theorem clobbers_iff {c : Call} {d : Disk} : c.Clobbers d ↔ Writes.Clobber (c.writes d) d := by
  unfold Clobbers
  rcases c.writes_eq d with h | ⟨s, h | ⟨found, known, h | h⟩⟩ <;>
    simp [h, Writes.Clobber, Write.Clobbers]

theorem writes_dry {c : Call} (h : c.IsDry) (d : Disk) : c.writes d = [] := by
  have hsync (hdry : ∀ here q, c.sync? here = some q → q.dryRun = true) :
      ((c.sync? d.here).map (·.writes d)).getD [] = [] := by
    rcases c.writes_of_sync? d with hw | ⟨q, hq, hw⟩
    · exact hw
    · rw [hw, SyncRequest.writes, if_pos (hdry _ _ hq)]
  cases c with
  | ensure s => exact h.elim
  | reconcile s found known dryRun =>
    obtain rfl : dryRun = true := h
    rfl
  | sync q => exact hsync h
  | command args preset hargs => exact hsync h
  | _ => rfl

theorem on_dry {c : Call} (h : c.IsDry) (d : Disk) : c.on d = d := by
  rw [on_eq, writes_dry h]
  rfl

end Call

namespace Calls

/-- The disk after calls, one after the other. -/
def run : List Call → Disk → Disk
  | [], d => d
  | c :: cs, d => run cs (c.on d)

def writes : List Call → Disk → List Write
  | [], _ => []
  | c :: cs, d => c.writes d ++ writes cs (c.on d)

/-- Each file keeps its bytes and has the blocks that the calls wrote to it behind them. What is new is
a file that the path of a store leads to, which starts with the header if it was made as one, or a
directory on the way to a store. -/
def AppendOnly (cs : List Call) (d : Disk) : Prop :=
  Disk.Grown (fun p => ∃ w ∈ writes cs d, w.store.path = p) (Writes.heads (writes cs d) d)
    (Writes.tails (writes cs d) d) d (run cs d)

theorem run_eq (cs : List Call) (d : Disk) : run cs d = Writes.run (writes cs d) d := by
  induction cs generalizing d with
  | nil => rfl
  | cons c cs ih => rw [run, writes, Writes.run_append, ← c.on_eq, ih]

theorem clobber_writes_iff {cs : List Call} {d : Disk} :
    Writes.Clobber (writes cs d) d ↔
      ∃ pre c post, cs = pre ++ c :: post ∧ c.Clobbers (run pre d) := by
  induction cs generalizing d with
  | nil => simp [writes, Writes.Clobber]
  | cons c cs ih =>
    rw [writes, Writes.clobber_append, ← c.on_eq, ← Call.clobbers_iff, ih]
    constructor
    · rintro (h | ⟨pre, c', post, rfl, h⟩)
      · exact ⟨[], c, cs, rfl, h⟩
      · exact ⟨c :: pre, c', post, rfl, h⟩
    · rintro ⟨pre, c', post, heq, h⟩
      cases pre with
      | nil =>
        cases heq
        exact .inl h
      | cons c₀ pre =>
        cases heq
        exact .inr ⟨pre, c', post, rfl, h⟩

/-- Whatever the calls, links and directories stay and files are files still. The run is append-only
exactly if no call makes a store over a file, which none does for a path that goes up at its start
only. A dry call changes nothing. -/
theorem appendOnly_iff (cs : List Call) (d : Disk) :
    d.Keeps (run cs d) ∧
      (AppendOnly cs d ↔ ∀ pre c post, cs = pre ++ c :: post → ¬ c.Clobbers (run pre d)) ∧
      (d.IsTree → (∀ w ∈ writes cs d, w.store.path.IsStraight) → AppendOnly cs d) ∧
      ∀ c ∈ cs, c.IsDry → ∀ e, c.on e = e := by
  have hiff : AppendOnly cs d ↔ ¬ Writes.Clobber (writes cs d) d := by
    rw [AppendOnly, run_eq]
    exact Writes.grown_iff fun w hw => ⟨w, hw, rfl⟩
  refine ⟨?_, ?_, ?_, fun c _ h e => Call.on_dry h e⟩
  · rw [run_eq]
    exact Writes.run_keeps _ d
  · rw [hiff, clobber_writes_iff]
    simp only [not_exists, not_and]
  · intro ht hp
    exact hiff.2 (Writes.not_clobber_of_straight ht hp)

def oneFile : Disk := ⟨[(["f"], .file (Utf8.encode "KEY=1\n".toList))], []⟩

/-- With one file on the disk, a store in a new directory is made and added to, one that goes up from
a new directory to that file is made over it, and a dry sync changes nothing. -/
theorem appendOnly_iff_one_file :
    AppendOnly [.ensure ⟨⟨.relative, ["a", ".env"]⟩⟩,
        .reconcile ⟨⟨.relative, ["a", ".env"]⟩⟩ ["B"] none false] oneFile ∧
    ¬ AppendOnly [.ensure ⟨⟨.relative, ["a", "..", "f"]⟩⟩] oneFile ∧
    (run [.ensure ⟨⟨.relative, ["a", "..", "f"]⟩⟩] oneFile).at? ["f"] =
      some (.file (Utf8.encode Store.header)) ∧
    (Call.sync { root := ⟨.relative, []⟩, dryRun := true }).on oneFile = oneFile := by
  refine ⟨(appendOnly_iff _ _).2.2.1 ⟨rfl, ?_⟩ ?_, ?_, by decide, ?_⟩
  · intro l n h
    cases l with
    | nil => rfl
    | cons m l => simp [oneFile, Disk.at?, Table.get?] at h
  · intro w hw
    have hpath : w.store.path = ⟨.relative, ["a", ".env"]⟩ := by
      simp only [writes, Call.writes, Bool.false_eq_true, if_false, List.cons_append,
        List.nil_append, List.append_nil, List.mem_cons, List.not_mem_nil, or_false] at hw
      rcases hw with rfl | rfl <;> rfl
    rw [hpath]
    exact ⟨by decide, by decide⟩
  · intro h
    refine (appendOnly_iff _ _).2.1.1 h [] _ [] rfl ⟨_, List.mem_cons_self, by decide, ?_⟩
    exact ⟨oneFile.put ["a"] .directory, ["f"], Utf8.encode "KEY=1\n".toList, rfl,
      by decide, by decide⟩
  · refine (appendOnly_iff [.sync { root := ⟨.relative, []⟩, dryRun := true }] oneFile).2.2.2 _
      List.mem_cons_self ?_ _
    intro here q hq
    cases hq
    rfl

end Calls
end EnvKeeper
