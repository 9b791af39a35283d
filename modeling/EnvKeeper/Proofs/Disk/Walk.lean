import EnvKeeper.Proofs.Disk.Rewrite

/-! How a path is followed: one name after the other, with the links counted that are gone over. From
that it is said what bars the way to a file: the path stops at a directory, something on its way is
missing or is no directory, or it goes over too many links, as in a loop. -/

namespace EnvKeeper.Disk

variable {d : Disk} {p : Path} {l m : Location} {n : String} {todo rest : List String} {k links : Nat}

/-- From `l` with `todo` ahead one comes to `m` with `rest` ahead, over `k` links. -/
inductive Reaches (d : Disk) (m : Location) (rest : List String) :
    (k : Nat) → (l : Location) → (todo : List String) → Prop where
  | here : Reaches d m rest 0 m rest
  | stay {k : Nat} {l : Location} {n : String} {todo : List String} (hn : n = "" ∨ n = ".")
    (h : Reaches d m rest k l todo) : Reaches d m rest k l (n :: todo)
  | up {k : Nat} {l : Location} {todo : List String} (h : Reaches d m rest k l.dropLast todo) :
    Reaches d m rest k l (".." :: todo)
  | down {k : Nat} {l : Location} {n : String} {todo : List String}
    (hn : (n ≠ "" ∧ n ≠ ".") ∧ n ≠ "..") (hat : d.at? (l ++ [n]) = some .directory)
    (h : Reaches d m rest k (l ++ [n]) todo) : Reaches d m rest k l (n :: todo)
  | link {k : Nat} {l : Location} {n target : String} {todo : List String}
    (hn : (n ≠ "" ∧ n ≠ ".") ∧ n ≠ "..") (hat : d.at? (l ++ [n]) = some (.link target))
    (h : Reaches d m rest k (if target.toList.head? = some '/' then [] else l)
      (Path.splitText target ++ todo)) : Reaches d m rest (k + 1) l (n :: todo)

/-- What bars the way to a file from `l` with `todo` ahead, if at most `links` links are followed. -/
inductive Barred (d : Disk) (links : Nat) (l : Location) (todo : List String) : Prop where
  | directory {k : Nat} {m : Location} (hk : k ≤ links) (h : d.Reaches m [] k l todo)
  | missing {k : Nat} {m : Location} {n : String} {rest : List String} (hk : k ≤ links)
    (h : d.Reaches m (n :: rest) k l todo) (hn : (n ≠ "" ∧ n ≠ ".") ∧ n ≠ "..") (hrest : rest ≠ [])
    (hat : d.at? (m ++ [n]) = none)
  | notDirectory {k : Nat} {m : Location} {n : String} {rest : List String} {b : List UInt8}
    (hk : k ≤ links) (h : d.Reaches m (n :: rest) k l todo) (hn : (n ≠ "" ∧ n ≠ ".") ∧ n ≠ "..")
    (hrest : rest ≠ []) (hat : d.at? (m ++ [n]) = some (.file b))
  | loop {m : Location} {rest : List String} (h : d.Reaches m rest (links + 1) l todo)

def IsBarred (d : Disk) (p : Path) : Prop := d.Barred linkLimit (d.start p) p.names

theorem walk_nil (d : Disk) (links : Nat) (l : Location) :
    d.walk false links l [] = .directory l := by
  cases links <;> rfl

theorem walk_stay (hn : n = "" ∨ n = ".") :
    d.walk false links l (n :: todo) = d.walk false links l todo := by
  cases links <;> simp only [walk, follow, if_pos hn]

theorem walk_up : d.walk false links l (".." :: todo) = d.walk false links l.dropLast todo := by
  cases links <;> rfl

theorem walk_cons (hn : (n ≠ "" ∧ n ≠ ".") ∧ n ≠ "..") :
    d.walk false links l (n :: todo) =
      match d.at? (l ++ [n]) with
      | none => if todo = [] then .vacant (l ++ [n]) else .astray .missing
      | some (.file b) => if todo = [] then .file (l ++ [n]) b else .astray .notDirectory
      | some (.link target) =>
        match links with
        | 0 => .astray .loop
        | links + 1 => d.walk false links (if target.toList.head? = some '/' then [] else l)
          (Path.splitText target ++ todo)
      | some .directory => d.walk false links (l ++ [n]) todo := by
  have hname : ¬ (n = "" ∨ n = ".") := not_or.2 hn.1
  rcases hat : d.at? (l ++ [n]) with _ | _ | _ | _ <;> cases links <;>
    simp only [walk, follow, hat, if_neg hname, if_neg hn.2, Bool.false_eq_true, false_and, if_false]

theorem walk_cons_directory (hn : (n ≠ "" ∧ n ≠ ".") ∧ n ≠ "..")
    (hat : d.at? (l ++ [n]) = some .directory) :
    d.walk false links l (n :: todo) = d.walk false links (l ++ [n]) todo := by
  rw [walk_cons hn, hat]

theorem Reaches.walk_eq (h : d.Reaches m rest k l todo) (links : Nat) :
    d.walk false (links + k) l todo = d.walk false links m rest := by
  induction h with
  | here => rfl
  | stay hn _ ih => rw [walk_stay hn, ih]
  | up _ ih => rw [walk_up, ih]
  | down hn hat _ ih => rw [walk_cons hn, hat]; exact ih
  | link hn hat _ ih => rw [walk_cons hn, hat]; exact ih

theorem Reaches.walk_loop (h : d.Reaches m rest k l todo) (hk : k = links + 1) :
    d.walk false links l todo = .astray .loop := by
  induction h generalizing links with
  | here => cases hk
  | stay hn _ ih => rw [walk_stay hn, ih hk]
  | up _ ih => rw [walk_up, ih hk]
  | down hn hat _ ih => rw [walk_cons hn, hat]; exact ih hk
  | link hn hat _ ih =>
    rw [walk_cons hn, hat]
    cases links with
    | zero => rfl
    | succ links => exact ih (Nat.succ.inj hk)

theorem Barred.of_step {l' : Location} {todo' : List String} {j : Nat}
    (hstep : ∀ {m rest k}, d.Reaches m rest k l' todo' → d.Reaches m rest (k + j) l todo)
    (h : d.Barred links l' todo') : d.Barred (links + j) l todo := by
  cases h with
  | directory hk h => exact .directory (Nat.add_le_add_right hk j) (hstep h)
  | missing hk h hn hrest hat => exact .missing (Nat.add_le_add_right hk j) (hstep h) hn hrest hat
  | notDirectory hk h hn hrest hat =>
    exact .notDirectory (Nat.add_le_add_right hk j) (hstep h) hn hrest hat
  | loop h =>
    have h := hstep h
    rw [Nat.add_right_comm] at h
    exact .loop h

/-- A walk that finds no place for a file was barred, step by step; `hover` is the walk behind a link. -/
theorem barred_of_place? {links : Nat}
    (hover : ∀ j l todo, links = j + 1 → (d.walk false j l todo).place? = none → d.Barred j l todo)
    (h : (d.walk false links l todo).place? = none) : d.Barred links l todo := by
  induction todo generalizing l with
  | nil => exact .directory (Nat.zero_le _) .here
  | cons n todo ih =>
    by_cases hstay : n = "" ∨ n = "."
    · rw [walk_stay hstay] at h
      exact (ih h).of_step (j := 0) (.stay hstay)
    by_cases hup : n = ".."
    · subst hup
      rw [walk_up] at h
      exact (ih h).of_step (j := 0) .up
    have hn : (n ≠ "" ∧ n ≠ ".") ∧ n ≠ ".." := ⟨not_or.1 hstay, hup⟩
    rw [walk_cons hn] at h
    cases hat : d.at? (l ++ [n]) with
    | none =>
      rw [hat] at h
      refine .missing (Nat.zero_le _) .here hn (fun htodo => ?_) hat
      simp only [if_pos htodo] at h
      cases h
    | some e =>
      rw [hat] at h
      cases e with
      | file b =>
        refine .notDirectory (Nat.zero_le _) .here hn (fun htodo => ?_) hat
        simp only [if_pos htodo] at h
        cases h
      | link target =>
        cases links with
        | zero => exact .loop (.link hn hat .here)
        | succ j => exact (hover j _ _ rfl h).of_step (.link hn hat)
      | directory => exact (ih h).of_step (j := 0) (.down hn hat)

theorem barred_iff : d.Barred links l todo ↔ (d.walk false links l todo).place? = none := by
  constructor
  · intro h
    have hwalk {k : Nat} {m : Location} {rest : List String} (hk : k ≤ links)
        (h : d.Reaches m rest k l todo) :
        d.walk false links l todo = d.walk false (links - k) m rest := by
      rw [← h.walk_eq (links - k), Nat.sub_add_cancel hk]
    cases h with
    | directory hk h => rw [hwalk hk h, walk_nil]; rfl
    | missing hk h hn hrest hat =>
      rw [hwalk hk h, walk_cons hn, hat]
      simp only [if_neg hrest]
      rfl
    | notDirectory hk h hn hrest hat =>
      rw [hwalk hk h, walk_cons hn, hat]
      simp only [if_neg hrest]
      rfl
    | loop h => rw [h.walk_loop rfl]; rfl
  · intro h
    induction links generalizing l todo with
    | zero => exact barred_of_place? (fun j _ _ hj => nomatch hj) h
    | succ links ih =>
      refine barred_of_place? (fun j _ _ hj hplace => ?_) h
      cases hj
      exact ih hplace

/-- A path leads to no file and to no place for one just where its way is barred. -/
theorem isBarred_iff (hnul : p.hasNul = false) : d.IsBarred p ↔ (d.resolve p).place? = none := by
  rw [IsBarred, barred_iff, resolve, hnul]
  rfl

end EnvKeeper.Disk
