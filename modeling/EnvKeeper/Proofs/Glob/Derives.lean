import EnvKeeper.Proofs.Disk.Proper
import EnvKeeper.Proofs.Glob.Pattern
import EnvKeeper.Proofs.Table

/-! What a pattern selects, said part by part: a name that is there, an entry that a wildcard matches,
or a way down over real directories. The walk over a disk reaches exactly the paths that are derived
in this way. -/

namespace EnvKeeper

namespace Disk

variable {d : Disk} {root : Path} {q r x : List String} {l : Location} {n : String} {slash : Bool}

/-- What one part of a pattern adds behind `q`. -/
inductive Contributes (d : Disk) (root : Path) (q : List String) : String → List String → Prop where
  | name {n : String} (h : ¬ IsWild n) (hthere : d.isThere (root.append (q ++ [n])) = true) :
    Contributes d root q n [n]
  | wild {n m : String} {l : Location} (h : IsWild n) (hn : n ≠ "**")
    (hl : d.resolve (root.append q) = .directory l) (hm : d.at? (l ++ [m]) ≠ none)
    (hmatch : Token.accept (Token.read n.toList) m.toList = true) : Contributes d root q n [m]
  | anyDepth {names : List String} {l : Location} (hl : d.resolve (root.append q) = .directory l)
    (hnames : d.Descends l names) : Contributes d root q "**" names

/-- The parts of a pattern lead on from `q` to `r`. What each part adds leads to a directory, but for
the last part of a pattern that does not end in a slash. -/
inductive Derives (d : Disk) (root : Path) (slash : Bool) :
    List String → List String → List String → Prop where
  | done (q : List String) : Derives d root slash [] q q
  | step {n : String} {parts q x r : List String} (h : d.Contributes root q n x)
    (hdir : parts ≠ [] ∨ slash = true → d.isDirectory (root.append (q ++ x)) = true)
    (hrest : Derives d root slash parts (q ++ x) r) : Derives d root slash (n :: parts) q r

theorem below?_eq_some {base l r : Location} : below? base l = some r ↔ l = base ++ r := by
  induction base generalizing l with
  | nil => simp [below?]
  | cons a base ih => cases l <;> grind [below?]

theorem mem_namesAt : n ∈ d.namesAt l ↔ d.at? (l ++ [n]) ≠ none := by
  rw [← mem_keys_iff (by simp), namesAt, List.mem_filterMap]
  constructor
  · rintro ⟨k, hk, he⟩
    split at he
    · next hb =>
      cases he
      rwa [← below?_eq_some.1 hb]
    · cases he
  · intro h
    refine ⟨_, h, ?_⟩
    rw [below?_eq_some.2 rfl]

theorem mem_namesIn {p : Path} :
    n ∈ d.namesIn p ↔ ∃ l, d.resolve p = .directory l ∧ d.at? (l ++ [n]) ≠ none := by
  unfold namesIn
  cases d.resolve p <;> simp [mem_namesAt]

theorem areDirectories_iff {names : List String} :
    d.areDirectories l names = true ↔ d.Descends l names := by
  induction names generalizing l with
  | nil => exact iff_of_true rfl (d.descends_nil l)
  | cons n names ih => rw [areDirectories, Bool.and_eq_true, beq_iff_eq, ih, descends_cons]

theorem mem_descents {names : List String} : names ∈ d.descents l ↔ d.Descends l names := by
  unfold descents
  simp only [List.mem_cons, List.mem_filter, List.mem_filterMap, below?_eq_some, Bool.and_eq_true,
    bne_iff_ne, areDirectories_iff]
  constructor
  · rintro (rfl | ⟨-, -, h⟩)
    · exact d.descends_nil l
    · exact h
  · intro h
    by_cases hn : names = []
    · exact .inl hn
    · refine .inr ⟨⟨l ++ names, ?_, rfl⟩, hn, h⟩
      have hat := h names hn List.prefix_rfl
      rw [at?, if_neg (by simp [hn])] at hat
      exact List.mem_map.2 ⟨_, List.mem_filter.2 ⟨Table.mem_of_get? hat, rfl⟩, rfl⟩

theorem mem_descentsIn {p : Path} {names : List String} :
    names ∈ d.descentsIn p ↔ ∃ l, d.resolve p = .directory l ∧ d.Descends l names := by
  unfold descentsIn
  cases d.resolve p <;> simp [mem_descents]

theorem isWild_anyDepth : IsWild "**" := ⟨'*', by decide, .inl rfl⟩

theorem read_cases {p : Part} (h : Part.read n = .ok p) :
    n = "**" ∧ p = .anyDepth ∨ n ≠ "**" ∧ IsWild n ∧ p = .wild (Token.read n.toList) ∨
      ¬ IsWild n ∧ p = .name n := by
  have hwild : (n.toList.any fun c => c == '*' || c == '?' || c == '[') = true ↔ IsWild n := by
    simp only [List.any_eq_true, Bool.or_eq_true, beq_iff_eq, or_assoc, IsWild]
  simp only [Part.read] at h
  split at h
  · next hn => exact .inl ⟨hn, (Except.ok.inj h).symm⟩
  next hn =>
  split at h
  · cases h
  split at h
  · next hw => exact .inr (.inl ⟨hn, hwild.1 hw, (Except.ok.inj h).symm⟩)
  · next hw => exact .inr (.inr ⟨mt hwild.2 hw, (Except.ok.inj h).symm⟩)

theorem contributes_name (h : ¬ IsWild n) :
    d.Contributes root q n x ↔ x = [n] ∧ d.isThere (root.append (q ++ [n])) = true := by
  constructor
  · intro hc
    cases hc with
    | name _ hthere => exact ⟨rfl, hthere⟩
    | wild hw => exact absurd hw h
    | anyDepth => exact absurd isWild_anyDepth h
  · rintro ⟨rfl, hthere⟩
    exact .name h hthere

theorem contributes_wild (h : IsWild n) (hn : n ≠ "**") :
    d.Contributes root q n x ↔ ∃ m ∈ d.namesIn (root.append q), x = [m] ∧
      Token.accept (Token.read n.toList) m.toList = true := by
  simp only [mem_namesIn]
  constructor
  · intro hc
    cases hc with
    | name hw => exact absurd h hw
    | wild _ _ hl hm hmatch => exact ⟨_, ⟨_, hl, hm⟩, rfl, hmatch⟩
    | anyDepth => exact absurd rfl hn
  · rintro ⟨m, ⟨l, hl, hm⟩, rfl, hmatch⟩
    exact .wild h hn hl hm hmatch

theorem contributes_anyDepth :
    d.Contributes root q "**" x ↔ x ∈ d.descentsIn (root.append q) := by
  rw [mem_descentsIn]
  constructor
  · intro hc
    cases hc with
    | name hw => exact absurd isWild_anyDepth hw
    | wild _ hn => exact absurd rfl hn
    | anyDepth hl hnames => exact ⟨_, hl, hnames⟩
  · rintro ⟨l, hl, hnames⟩
    exact .anyDepth hl hnames

theorem isThere_of_isDirectory {p : Path} (h : d.isDirectory p = true) : d.isThere p = true := by
  rw [isThere, h, Bool.or_true]

/-- The ways in which a part goes on are what it adds, and directories unless it is the last part. -/
theorem mem_extend (hd : d.IsProper) {p : Part} (hp : Part.read n = .ok p) (isLast : Bool) :
    r ∈ d.extend root isLast q p ↔ ∃ x, r = q ++ x ∧ d.Contributes root q n x ∧
      (isLast = false → d.isDirectory (root.append (q ++ x)) = true) := by
  rcases read_cases hp with ⟨rfl, rfl⟩ | ⟨hn, hw, rfl⟩ | ⟨hw, rfl⟩
  · simp only [extend, List.mem_map, contributes_anyDepth]
    constructor
    · rintro ⟨x, hx, rfl⟩
      obtain ⟨l, hl, hnames⟩ := mem_descentsIn.1 hx
      exact ⟨x, rfl, hx, fun _ => isDirectory_iff.2 ⟨_, resolve_descends hd hl hnames⟩⟩
    · rintro ⟨x, rfl, hx, -⟩
      exact ⟨x, hx, rfl⟩
  · simp only [extend, List.mem_map, List.mem_filter, contributes_wild hw hn, Bool.and_eq_true,
      Bool.or_eq_true]
    constructor
    · rintro ⟨m, ⟨hm, hmatch, hdir⟩, rfl⟩
      exact ⟨[m], rfl, ⟨m, hm, rfl, hmatch⟩, fun hlast => hdir.resolve_left (by simp [hlast])⟩
    · rintro ⟨x, rfl, ⟨m, hm, rfl, hmatch⟩, hdir⟩
      refine ⟨m, ⟨hm, hmatch, ?_⟩, rfl⟩
      cases isLast with
      | true => exact .inl rfl
      | false => exact .inr (hdir rfl)
  · simp only [extend, contributes_name hw, List.mem_ite_nil_right, List.mem_singleton]
    constructor
    · rintro ⟨hp, rfl⟩
      refine ⟨[n], rfl, ⟨rfl, ?_⟩, ?_⟩
      · cases isLast with
        | true => exact hp
        | false => exact isThere_of_isDirectory hp
      · rintro rfl
        exact hp
    · rintro ⟨x, rfl, ⟨rfl, hthere⟩, hdir⟩
      refine ⟨?_, rfl⟩
      cases isLast with
      | true => exact hthere
      | false => exact hdir rfl

theorem isEmpty_ending {parts : List String} {ps : Pattern} (slash : Bool)
    (hps : List.Forall₂ (fun n p => Part.read n = .ok p) parts ps) :
    (ps ++ Pattern.ending slash).isEmpty = false ↔ parts ≠ [] ∨ slash = true := by
  cases hps <;> cases slash <;> simp [Pattern.ending]

theorem derives_nil : d.Derives root slash [] q r ↔ r = q := by
  constructor
  · intro h
    cases h
    rfl
  · rintro rfl
    exact .done r

/-- The walk reaches what is derived. -/
theorem mem_expand_iff (hd : d.IsProper) (slash : Bool) {parts : List String} {ps : Pattern}
    (hps : List.Forall₂ (fun n p => Part.read n = .ok p) parts ps) :
    r ∈ d.expand root (ps ++ Pattern.ending slash) [q] ↔ d.Derives root slash parts q r := by
  induction hps generalizing q with
  | nil =>
    rw [derives_nil]
    cases slash <;> simp [Pattern.ending, expand, extend]
  | cons hp hps ih =>
    rw [List.cons_append, mem_expand_cons]
    simp only [List.mem_singleton, exists_eq_left, ih, mem_extend hd hp, isEmpty_ending slash hps]
    constructor
    · rintro ⟨c, ⟨x, rfl, hc, hdir⟩, hr⟩
      exact .step hc hdir hr
    · intro h
      cases h with
      | step hc hdir hr => exact ⟨_, ⟨_, rfl, hc, hdir⟩, hr⟩

end Disk
end EnvKeeper
