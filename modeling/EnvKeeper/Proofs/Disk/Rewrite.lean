import EnvKeeper.Disk.Arrange
import EnvKeeper.Proofs.Disk.Leads

/-! A file that gets new bytes. Paths lead where they did, and only what leads to that file finds
the new bytes there. -/

namespace EnvKeeper

def Target.rewrite (l : Location) (bytes : List UInt8) : Target → Target
  | .file m old => .file m (if l = m then bytes else old)
  | t => t

/-- The place of a file, or the vacant one. -/
def Target.place? : Target → Option Location
  | .file l _ => some l
  | .vacant l => some l
  | _ => none

namespace Disk

variable {d : Disk} {p : Path} {l : Location} {old : List UInt8}

theorem ne_nil_of_at?_file (h : d.at? l = some (.file old)) : l ≠ [] := by
  rintro rfl
  simp [at?] at h

theorem follow_put_file (h : d.at? l = some (.file old)) (bytes : List UInt8) {writing : Bool}
    {f g : Location → List String → Target} (hfg : ∀ m todo, g m todo = (f m todo).rewrite l bytes)
    (m : Location) (todo : List String) :
    (d.put l (.file bytes)).follow writing g m todo = (d.follow writing f m todo).rewrite l bytes := by
  have hl := ne_nil_of_at?_file h
  induction todo generalizing m with
  | nil => rfl
  | cons n todo ih =>
    unfold follow
    split
    · exact ih m
    split
    · exact ih m.dropLast
    split
    · rfl
    rw [at?_put d _ _ hl]
    by_cases hm : l = m ++ [n]
    · subst hm
      rw [if_pos rfl, h]
      simp only
      split
      · simp [Target.rewrite]
      · rfl
    · rw [if_neg hm]
      cases d.at? (m ++ [n]) with
      | none =>
        simp only
        split <;> rfl
      | some e =>
        cases e with
        | file b =>
          simp only
          split
          · simp [Target.rewrite, hm]
          · rfl
        | link t => exact hfg _ _
        | directory => exact ih _

theorem walk_put_file (h : d.at? l = some (.file old)) (bytes : List UInt8) (writing : Bool)
    (links : Nat) (m : Location) (todo : List String) :
    (d.put l (.file bytes)).walk writing links m todo =
      (d.walk writing links m todo).rewrite l bytes := by
  induction links generalizing m todo with
  | zero =>
    exact follow_put_file h bytes (f := fun _ _ => .astray .loop) (g := fun _ _ => .astray .loop)
      (fun _ _ => rfl) m todo
  | succ links ih => exact follow_put_file h bytes ih m todo

theorem resolve_put_file (h : d.at? l = some (.file old)) (bytes : List UInt8) (p : Path) :
    (d.put l (.file bytes)).resolve p = (d.resolve p).rewrite l bytes := by
  unfold resolve
  split
  · rfl
  · exact walk_put_file h bytes false _ _ _

theorem resolve_of_destination {t : Target} (h : d.destination p = t) (ht : t ≠ .astray .slash) :
    d.resolve p = t := by
  rcases d.destination_eq p with hs | hr
  · exact absurd (h.symm.trans hs) ht
  · exact hr.symm.trans h

/-- Names with a slash behind them lead to no place for a file. -/
theorem follow_slash {g : Location → List String → Target}
    (hg : ∀ l todo, todo.getLast? = some "" → (g l todo).place? = none) (l : Location)
    {todo : List String} (hlast : todo.getLast? = some "") :
    (d.follow false g l todo).place? = none := by
  induction todo generalizing l with
  | nil => cases hlast
  | cons n todo ih =>
    unfold follow
    by_cases htodo : todo = []
    · subst htodo
      obtain rfl : n = "" := by simpa using hlast
      rfl
    have hlast : todo.getLast? = some "" := by
      rwa [List.getLast?_cons_of_ne_nil htodo] at hlast
    simp only [Bool.false_eq_true, false_and, if_false, if_neg htodo]
    split
    · exact ih l hlast
    split
    · exact ih _ hlast
    split
    · rfl
    · rfl
    · refine hg _ _ ?_
      rw [List.getLast?_append, hlast]
      rfl
    · exact ih _ hlast

theorem walk_slash (links : Nat) (l : Location) {todo : List String}
    (hlast : todo.getLast? = some "") : (d.walk false links l todo).place? = none := by
  induction links generalizing l todo with
  | zero => exact follow_slash (g := fun _ _ => .astray .loop) (fun _ _ _ => rfl) l hlast
  | succ links ih => exact follow_slash (fun l _ h => ih l h) l hlast

theorem follow_true_of_place {f g : Location → List String → Target}
    (hf : ∀ l todo, (g l todo).place? ≠ none → f l todo = g l todo)
    (hg : ∀ l todo, todo.getLast? = some "" → (g l todo).place? = none) (l : Location)
    {todo : List String} (h : (d.follow false g l todo).place? ≠ none) :
    d.follow true f l todo = d.follow false g l todo := by
  induction todo generalizing l with
  | nil => rfl
  | cons n todo ih =>
    by_cases hslash : todo ≠ [] ∧ todo.all (· == "") = true
    · -- there is no place where writing is refused for a slash
      obtain ⟨htodo, hall⟩ := hslash
      have hlast : (n :: todo).getLast? = some "" := by
        have hmem := List.all_eq_true.1 hall _ (List.getLast_mem htodo)
        rw [List.getLast?_cons_of_ne_nil htodo, List.getLast?_eq_some_getLast htodo,
          beq_iff_eq.1 hmem]
      exact absurd (follow_slash hg l hlast) h
    have hslash' : ¬ (true = true ∧ todo ≠ [] ∧ todo.all (· == "") = true) := fun hs => hslash hs.2
    unfold follow at h ⊢
    simp only [Bool.false_eq_true, false_and, if_false] at h
    rw [if_neg hslash']
    simp only [Bool.false_eq_true, false_and, if_false]
    split
    · next hn => exact ih l (by rwa [if_pos hn] at h)
    next hn =>
    rw [if_neg hn] at h
    split
    · next hup => exact ih _ (by rwa [if_pos hup] at h)
    next hup =>
    rw [if_neg hup] at h
    cases he : d.at? (l ++ [n]) with
    | none => rfl
    | some e =>
      rw [he] at h
      cases e with
      | file => rfl
      | link => exact hf _ _ h
      | directory => exact ih _ h

theorem walk_true_of_place {links : Nat} {l : Location} {todo : List String}
    (h : (d.walk false links l todo).place? ≠ none) :
    d.walk true links l todo = d.walk false links l todo := by
  induction links generalizing l todo with
  | zero =>
    exact follow_true_of_place (f := fun _ _ => .astray .loop) (g := fun _ _ => .astray .loop)
      (fun _ _ _ => rfl) (fun _ _ _ => rfl) l h
  | succ links ih =>
    exact follow_true_of_place (fun _ _ => ih) (fun l _ h => walk_slash links l h) l h

theorem destination_of_place (h : (d.resolve p).place? ≠ none) : d.destination p = d.resolve p := by
  unfold resolve at h
  unfold destination resolve
  split
  · rfl
  · next hnul =>
    rw [if_neg hnul] at h
    exact walk_true_of_place h

theorem destination_of_file {b : List UInt8} (h : d.resolve p = .file l b) :
    d.destination p = .file l b := by
  rw [destination_of_place (by rw [h]; nofun), h]

theorem append_ok {b : List UInt8} (h : d.resolve p = .file l b) (new : List UInt8) :
    d.append p new = .ok (d.put l (.file (b ++ new))) := by
  rw [append, update, destination_of_file h]

theorem update_eq_ok {f : List UInt8 → List UInt8} {d' : Disk} (h : d.update p f = .ok d') :
    (∃ l old, d.destination p = .file l old ∧ d' = d.put l (.file (f old))) ∨
      ∃ l, d.destination p = .vacant l ∧ d' = d.put l (.file (f [])) := by
  unfold update at h
  split at h
  · next l old hd =>
    cases h
    exact .inl ⟨l, old, hd, rfl⟩
  · next l hd =>
    cases h
    exact .inr ⟨l, hd, rfl⟩
  · cases h
  · cases h

theorem update_vacant (h : d.resolve p = .vacant l) (f : List UInt8 → List UInt8) :
    d.update p f = .ok (d.put l (.file (f []))) := by
  rw [update, destination_of_place (by rw [h]; nofun), h]

/-- Below what is no directory there is no place for a file. -/
theorem place?_of_parent (h : d.isDirectory p.parent = false) : (d.resolve p).place? = none := by
  have harrives (hp : (d.resolve p).Arrives) : False := by
    rw [isDirectory_iff.2 (resolve_parent hp)] at h
    cases h
  cases hr : d.resolve p with
  | file | vacant => exact (harrives (by rw [hr]; nofun)).elim
  | directory | astray => rfl

theorem place?_of_update {f : List UInt8 → List UInt8} {d' : Disk} (h : d.update p f = .ok d') :
    (d.resolve p).place? ≠ none := by
  rcases update_eq_ok h with ⟨l, old, hd, -⟩ | ⟨l, hd, -⟩
  · rw [resolve_of_destination hd nofun]
    nofun
  · rw [resolve_of_destination hd nofun]
    nofun

theorem update_error_iff {f : List UInt8 → List UInt8} :
    (∃ e, d.update p f = .error e) ↔ (d.resolve p).place? = none := by
  constructor
  · rintro ⟨e, he⟩
    cases hr : d.resolve p with
    | file l b =>
      rw [update, destination_of_file hr] at he
      cases he
    | vacant l =>
      rw [update_vacant hr] at he
      cases he
    | directory l => rfl
    | astray a => rfl
  · intro hplace
    cases hu : d.update p f with
    | error e => exact ⟨e, rfl⟩
    | ok d' => exact absurd hplace (place?_of_update hu)

/-- Bytes are added to the file that a path leads to, and it leads there still. -/
theorem append_file {new : List UInt8} {d' : Disk} (hr : d.resolve p = .file l old)
    (h : d.append p new = .ok d') :
    d' = d.put l (.file (old ++ new)) ∧ d'.resolve p = .file l (old ++ new) := by
  have hd : d' = d.put l (.file (old ++ new)) := by
    rcases update_eq_ok h with ⟨m, b, hd, rfl⟩ | ⟨m, hd, rfl⟩
    · rw [resolve_of_destination hd nofun] at hr
      cases hr
      rfl
    · rw [resolve_of_destination hd nofun] at hr
      cases hr
  refine ⟨hd, ?_⟩
  rw [hd, resolve_put_file (at?_of_resolve hr), hr, Target.rewrite, if_pos rfl]

theorem append_again {new : List UInt8} {d' : Disk} (hr : d.resolve p = .file l old)
    (h : d.append p new = .ok d') (more : List UInt8) :
    d'.append p more = .ok (d'.put l (.file (old ++ new ++ more))) :=
  append_ok (append_file hr h).2 more

end Disk
end EnvKeeper
