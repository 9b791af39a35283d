import EnvKeeper.Proofs.Disk.Proper

/-! A file that is made at a vacant place. A path that led to that place leads to the file now, every
other one leads where it did, and one that led nowhere still leads nowhere. -/

namespace EnvKeeper

/-- No name of the path says nothing, as in every path that is read from a text. -/
def Path.IsPlain (p : Path) : Prop := ∀ n ∈ p.names, n ≠ "" ∧ n ≠ "."

theorem Path.IsPlain.parent {p : Path} (h : p.IsPlain) : p.parent.IsPlain := fun n hn =>
  h n (List.dropLast_subset _ hn)

/-- The target with a file that holds `bytes` at `l`, if that was vacant. -/
def Target.fill (l : Location) (bytes : List UInt8) : Target → Target
  | .vacant m => if l = m then .file l bytes else .vacant m
  | t => t

namespace Disk

variable {d : Disk} {p : Path} {l m : Location} {n : String} {q : List String}

/-- Where a walk can end. A place that it finds vacant has a name that was looked for. -/
theorem walk_ends {P : Target → Prop} (hdirectory : ∀ l, P (.directory l))
    (hfile : ∀ l bytes, P (.file l bytes))
    (hvacant : ∀ l n, (n ≠ "" ∧ n ≠ ".") ∧ n ≠ ".." → P (.vacant (l ++ [n])))
    (hastray : ∀ a, a ≠ .nul → P (.astray a)) (writing : Bool) (links : Nat) (l : Location)
    (todo : List String) : P (d.walk writing links l todo) := by
  have hfollow {f : Location → List String → Target} (hf : ∀ l todo, P (f l todo)) (l : Location)
      (todo : List String) : P (d.follow writing f l todo) := by
    induction todo generalizing l with
    | nil => exact hdirectory l
    | cons n todo ih =>
      unfold follow
      split
      · exact ih l
      next hn =>
      split
      · exact ih l.dropLast
      next hup =>
      split
      · exact hastray _ (by decide)
      split
      · split
        · exact hvacant l n ⟨not_or.1 hn, hup⟩
        · exact hastray _ (by decide)
      · split
        · exact hfile _ _
        · exact hastray _ (by decide)
      · exact hf _ _
      · exact ih _
  induction links generalizing l todo with
  | zero => exact hfollow (f := fun _ _ => .astray .loop) (fun _ _ => hastray _ (by decide)) l todo
  | succ links ih => exact hfollow ih l todo

theorem resolve_vacant_name (h : d.resolve p = .vacant l) :
    ∃ m n, l = m ++ [n] ∧ (n ≠ "" ∧ n ≠ ".") ∧ n ≠ ".." := by
  unfold resolve at h
  split at h
  · cases h
  · refine walk_ends (d := d)
      (P := fun t => t = .vacant l → ∃ m n, l = m ++ [n] ∧ (n ≠ "" ∧ n ≠ ".") ∧ n ≠ "..")
      nofun nofun (fun m n hn he => ?_) nofun _ _ _ _ h
    cases he
    exact ⟨m, n, rfl, hn⟩

theorem isThere_eq_false (h : d.resolve (p.append q) = .directory m) (hat : d.at? (m ++ [n]) = none)
    (hn : (n ≠ "" ∧ n ≠ ".") ∧ n ≠ "..") : d.isThere (p.append (q ++ [n])) = false := by
  by_cases hnul : '\x00' ∈ n.toList
  · have hpath : (p.append (q ++ [n])).hasNul = true := by
      simp [Path.hasNul, Path.append, hnul]
    rw [isThere, isFile, bytes?, isDirectory, resolve, if_pos hpath]
    rfl
  · have hnames : ∀ m ∈ [n], '\x00' ∉ m.toList := by
      intro m hm
      rw [List.mem_singleton.1 hm]
      exact hnul
    obtain ⟨links, hwalk⟩ := resolve_append h hnames
    have hvacant : d.walk false links m [n] = .vacant (m ++ [n]) := by
      rw [walk_cons hn, hat]
      rfl
    rw [isThere, isFile, bytes?, isDirectory, hwalk, hvacant]
    rfl

theorem makeDirectories_there (hp : p.IsPlain) (h : d.isDirectory p = true) :
    d.makeDirectories p = (.ok (), d) := by
  obtain ⟨anchor, names⟩ := p
  cases hnames : names.reverse with
  | nil => rw [makeDirectories, hnames, makeDirectoriesUp]
  | cons n up =>
    obtain rfl : names = up.reverse ++ [n] := by
      rw [← List.reverse_cons, ← hnames, List.reverse_reverse]
    have hmake : d.makeDirectory ⟨anchor, up.reverse ++ [n]⟩ =
        .error (.refused .exists ⟨anchor, up.reverse ++ [n]⟩) := by
      obtain ⟨l, hl⟩ := isDirectory_iff.1 h
      have hnul : Path.hasNul ⟨anchor, up.reverse ++ [n]⟩ = false := by
        cases hnul : Path.hasNul ⟨anchor, up.reverse ++ [n]⟩ with
        | false => rfl
        | true => rw [isDirectory_of_nul hnul] at h; cases h
      unfold makeDirectory
      rw [hnul]
      simp only [Bool.false_eq_true, if_false, List.getLast?_concat]
      by_cases hup : n = ".."
      · rw [if_pos hup, hl]
      · rw [if_neg hup]
        obtain ⟨m, hm⟩ := resolve_parent (fun a ha => by rw [hl] at ha; cases ha)
        rw [hm]
        simp only
        cases hat : d.at? (m ++ [n]) with
        | some x => rfl
        | none =>
          have hplain := hp n (List.mem_append_right _ (List.mem_singleton_self n))
          have hparent : Path.parent ⟨anchor, up.reverse ++ [n]⟩ =
              Path.append ⟨anchor, up.reverse⟩ [] := by
            simp only [Path.parent, Path.append, List.dropLast_concat, List.append_nil]
          rw [hparent] at hm
          have habsent := isThere_eq_false hm hat ⟨hplain, hup⟩
          rw [Path.append, List.nil_append, isThere, h, Bool.or_true] at habsent
          cases habsent
    rw [makeDirectories, hnames]
    show makeDirectoriesUp anchor (n :: up) d = _
    rw [makeDirectoriesUp_cons, List.reverse_cons, hmake]
    simp only [settle, h, if_true]

theorem walk_ne_nul (writing : Bool) (links : Nat) (l : Location) (todo : List String) :
    d.walk writing links l todo ≠ .astray .nul :=
  walk_ends (P := (· ≠ .astray .nul)) nofun nofun nofun (fun _ ha he => ha (Target.astray.inj he))
    writing links l todo

theorem resolve_ne_nul (h : p.hasNul = false) : d.resolve p ≠ .astray .nul := by
  rw [resolve, h]
  exact walk_ne_nul _ _ _ _

theorem update_ne_nul (h : p.hasNul = false) (f : List UInt8 → List UInt8) :
    d.update p f ≠ .error .nul := by
  have hd : d.destination p ≠ .astray .nul := by
    rw [destination, h]
    exact walk_ne_nul _ _ _ _
  intro hu
  unfold update at hu
  cases ht : d.destination p with
  | astray a =>
    rw [ht] at hu
    cases a with
    | nul => exact hd ht
    | _ => cases hu
  | _ =>
    rw [ht] at hu
    cases hu

section New

variable (h : d.at? l = none) (bytes : List UInt8)
include h

theorem keeps_put_new : d.Keeps (d.put l (.file bytes)) := keeps_put (ne_nil_of_at?_none h) (.inl h)

theorem follow_put_new {f g : Location → List String → Target}
    (hfg : ∀ k todo a, f k todo = .astray a → ∃ a', g k todo = .astray a') (k : Location)
    (todo : List String) {a : Astray} (ha : d.follow false f k todo = .astray a) :
    ∃ a', (d.put l (.file bytes)).follow false g k todo = .astray a' := by
  induction todo generalizing k with
  | nil => cases ha
  | cons n todo ih =>
    unfold follow at ha ⊢
    simp only [Bool.false_eq_true, false_and, if_false] at ha ⊢
    split
    · next hn =>
      rw [if_pos hn] at ha
      exact ih k ha
    next hn =>
    rw [if_neg hn] at ha
    split
    · next hup =>
      rw [if_pos hup] at ha
      exact ih k.dropLast ha
    next hup =>
    rw [if_neg hup] at ha
    rw [at?_put d _ _ (ne_nil_of_at?_none h)]
    by_cases hk : l = k ++ [n]
    · subst hk
      rw [h] at ha
      simp only [if_true] at ha ⊢
      by_cases hnil : todo = []
      · rw [if_pos hnil] at ha
        cases ha
      · rw [if_neg hnil]
        exact ⟨_, rfl⟩
    · rw [if_neg hk]
      cases hat : d.at? (k ++ [n]) with
      | none =>
        rw [hat] at ha
        exact ⟨a, ha⟩
      | some x =>
        rw [hat] at ha
        cases x with
        | file b => exact ⟨a, ha⟩
        | link t => exact hfg _ _ _ ha
        | directory => exact ih _ ha

theorem resolve_put_new_astray {a : Astray} (ha : d.resolve p = .astray a) :
    ∃ a', (d.put l (.file bytes)).resolve p = .astray a' := by
  have hwalk (links : Nat) : ∀ k todo a, d.walk false links k todo = .astray a →
      ∃ a', (d.put l (.file bytes)).walk false links k todo = .astray a' := by
    induction links with
    | zero =>
      exact fun k todo a => follow_put_new h bytes (f := fun _ _ => .astray .loop)
        (g := fun _ _ => .astray .loop) (fun _ _ a ha => ⟨_, rfl⟩) k todo
    | succ links ih => exact fun k todo a => follow_put_new h bytes ih k todo
  unfold resolve at ha ⊢
  split
  · exact ⟨_, rfl⟩
  · next hnul =>
    rw [if_neg hnul] at ha
    exact hwalk _ _ _ _ ha

theorem resolve_put_new (p : Path) :
    (∃ a a', d.resolve p = .astray a ∧ (d.put l (.file bytes)).resolve p = .astray a') ∨
      (d.put l (.file bytes)).resolve p = (d.resolve p).fill l bytes := by
  have hkeeps := keeps_put_new h bytes
  have hput (m : Location) := at?_put d m (.file bytes) (ne_nil_of_at?_none h)
  cases hr : d.resolve p with
  | astray a =>
    obtain ⟨a', ha'⟩ := resolve_put_new_astray h bytes hr
    exact .inl ⟨a, a', rfl, ha'⟩
  | directory m => exact .inr (resolve_directory_keeps hkeeps hr)
  | file m old =>
    right
    have hm := at?_of_resolve hr
    have hne : l ≠ m := by
      rintro rfl
      rw [h] at hm
      cases hm
    rw [resolve_keeps hkeeps (by rw [hr]; trivial), hr, Target.seen, hput m, if_neg hne, hm]
    rfl
  | vacant m =>
    right
    have hm := at?_of_vacant hr
    have hlink (t : String) : (d.put l (.file bytes)).at? m ≠ some (.link t) := by
      intro he
      rw [hput m, hm] at he
      split at he <;> cases he
    rw [resolve_keeps hkeeps (by rw [hr]; exact hlink), hr, Target.seen, hput m, Target.fill]
    by_cases hl : l = m
    · rw [if_pos hl, if_pos hl, hl]
    · rw [if_neg hl, if_neg hl, hm]

theorem resolve_directory_put_new :
    (d.put l (.file bytes)).resolve p = .directory m ↔ d.resolve p = .directory m := by
  rcases resolve_put_new h bytes p with ⟨a, a', ha, ha'⟩ | hr
  · rw [ha, ha']
    exact iff_of_false nofun nofun
  · rw [hr]
    cases d.resolve p with
    | vacant k =>
      by_cases hk : l = k
      · rw [Target.fill, if_pos hk]
        exact iff_of_false nofun nofun
      · rw [Target.fill, if_neg hk]
    | _ => rfl

theorem isDirectory_put_new (p : Path) :
    (d.put l (.file bytes)).isDirectory p = d.isDirectory p := by
  rw [Bool.eq_iff_iff, isDirectory_iff, isDirectory_iff]
  exact exists_congr fun m => resolve_directory_put_new h bytes

theorem bytes?_put_new (hp : d.isFile p = true) :
    (d.put l (.file bytes)).bytes? p = d.bytes? p := by
  obtain ⟨m, b, hm⟩ := isFile_iff.1 hp
  rcases resolve_put_new h bytes p with ⟨a, a', ha, -⟩ | hr
  · rw [hm] at ha
    cases ha
  · rw [bytes?, bytes?, hr, hm]
    rfl

theorem bytes?_put_new_of_not (hp : d.isFile p = false)
    (hp' : (d.put l (.file bytes)).isFile p = true) :
    (d.put l (.file bytes)).bytes? p = some bytes := by
  obtain ⟨m, b, hm⟩ := isFile_iff.1 hp'
  rcases resolve_put_new h bytes p with ⟨a, a', -, ha'⟩ | hr
  · rw [hm] at ha'
    cases ha'
  · cases hd : d.resolve p with
    | file k old => rw [isFile_iff.2 ⟨k, old, hd⟩] at hp; cases hp
    | vacant k =>
      rw [hd, Target.fill] at hr
      split at hr
      · rw [bytes?, hr]
      · rw [hm] at hr
        cases hr
    | _ =>
      rw [hd, hm] at hr
      cases hr

theorem descends_put_new {names : List String} :
    (d.put l (.file bytes)).Descends m names ↔ d.Descends m names := by
  have hat (k : Location) : (d.put l (.file bytes)).at? k = some .directory ↔
      d.at? k = some .directory := by
    rw [at?_put d k _ (ne_nil_of_at?_none h)]
    by_cases hk : l = k
    · rw [if_pos hk, ← hk, h]
      simp
    · rw [if_neg hk]
  unfold Descends
  simp only [hat]

end New
end Disk
end EnvKeeper
