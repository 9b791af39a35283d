import EnvKeeper.Proofs.Additions
import EnvKeeper.Proofs.Disk.Directories
import EnvKeeper.Proofs.Disk.Grown
import EnvKeeper.Proofs.Store.Outcome

/-! What the requests to a store add to a disk. Only the making of a store can do more than add: when
the directories that it makes bring a file under its path, that file is written over. -/

namespace EnvKeeper

namespace Disk

variable {d e : Disk} {p q : Path} {l : Location} {x : List UInt8}

def only (l : Location) (x : List UInt8) : Location → List UInt8 := fun m => if m = l then x else []

def nowhere : Location → List UInt8 := fun _ => []

theorem only_self (l : Location) (x : List UInt8) : only l x l = x := if_pos rfl

theorem only_other {m : Location} (h : m ≠ l) (x : List UInt8) : only l x m = [] := if_neg h

theorem only_nil (l : Location) : only l [] = nowhere := by
  funext m
  unfold only
  split <;> rfl

theorem isOnWay_of_made (hq : q.names ≠ []) (ha : q.anchor = p.parent.anchor)
    (hp : q.names <+: p.parent.names) : q.IsOnWay p where
  anchor := ha
  names := hp.trans (List.dropLast_prefix _)
  proper := by
    intro he
    have hle := hp.length_le
    have hpos := List.length_pos_iff.2 hq
    rw [he, Path.parent, List.length_dropLast] at hle
    rw [he] at hpos
    omega

theorem grown_directory (hq : q.IsOnWay p) (h : d.makeDirectory q = .ok e) :
    Grown (· = p) nowhere nowhere d e := by
  obtain ⟨l, hs, hl, rfl⟩ := makeDirectory_eq_ok h
  have hne := ne_nil_of_at?_none hl
  have hk : d.Keeps (d.put l .directory) := keeps_put hne (.inl hl)
  refine ⟨hk, ?_, ?_, fun _ _ => ⟨rfl, rfl⟩, fun _ _ => rfl⟩
  · intro m b hm
    rw [at?_put d m _ hne, if_neg]
    · rw [hm, nowhere, List.append_nil]
    · rintro rfl
      rw [hl] at hm
      cases hm
  · intro m y hm he
    rw [at?_put d m _ hne] at he
    split at he
    · next hlm =>
      cases he
      exact .inr ⟨rfl, p, q, rfl, hq, hlm ▸ hk.slot? hs⟩
    · rw [hm] at he
      cases he

theorem grown_made (h : Made p.parent d e) : Grown (· = p) nowhere nowhere d e := by
  induction h with
  | refl => exact .refl _ d
  | tail q _ ha hp hm ih =>
    have hq : q.names ≠ [] := by
      obtain ⟨l, hs, -, -⟩ := makeDirectory_eq_ok hm
      intro hn
      simp [slot?, hn] at hs
    exact ih.trans (grown_directory (isOnWay_of_made hq ha hp) hm)

theorem grown_put_file {old : List UInt8} (h : d.resolve p = .file l old) (x : List UInt8) :
    Grown (· = p) nowhere (only l x) d (d.put l (.file (old ++ x))) := by
  have hl := at?_of_resolve h
  have hne := ne_nil_of_at?_file hl
  have hput (m : Location) := at?_put d m (.file (old ++ x)) hne
  refine ⟨keeps_put hne (.inr ⟨old, _, hl, rfl⟩), ?_, ?_, ?_, fun _ _ => rfl⟩
  · intro m b hm
    rw [hput]
    split
    · next hlm =>
      subst hlm
      rw [hl] at hm
      cases hm
      rw [only_self]
    · next hlm => rw [hm, only_other (Ne.symm hlm), List.append_nil]
  · intro m y hm he
    rw [hput, if_neg, hm] at he
    · cases he
    · rintro rfl
      rw [hl] at hm
      cases hm
  · intro m hm
    refine ⟨rfl, only_other ?_ x⟩
    intro hlm
    rw [hput, if_pos hlm.symm] at hm
    cases hm

theorem grown_put_vacant (h : d.resolve p = .vacant l) (y x : List UInt8) :
    Grown (· = p) (only l y) (only l x) d (d.put l (.file (y ++ x))) := by
  have hl := at?_of_vacant h
  have hne := ne_nil_of_at?_none hl
  have hk : d.Keeps (d.put l (.file (y ++ x))) := keeps_put hne (.inl hl)
  have hput (m : Location) := at?_put d m (.file (y ++ x)) hne
  have hself : (d.put l (.file (y ++ x))).at? l = some (.file (y ++ x)) := by rw [hput, if_pos rfl]
  refine ⟨hk, ?_, ?_, ?_, ?_⟩
  · intro m b hm
    have hlm : m ≠ l := by
      rintro rfl
      rw [hl] at hm
      cases hm
    rw [hput, if_neg (Ne.symm hlm), hm, only_other hlm, List.append_nil]
  · intro m z hm he
    rw [hput] at he
    split at he
    · next hlm =>
      subst hlm
      cases he
      refine .inl ⟨?_, p, _, rfl, resolve_vacant_keeps hk h hself⟩
      rw [only_self, only_self]
    · rw [hm] at he
      cases he
  · intro m hm
    have hlm : m ≠ l := by
      rintro rfl
      rw [hself] at hm
      cases hm
    exact ⟨only_other hlm y, only_other hlm x⟩
  · intro m hm
    refine only_other ?_ y
    intro hlm
    rw [hlm] at hm
    exact hm hl

end Disk

namespace Store

variable (s : Store)

/-- The store is missing, and the directories that are made for it bring another file under its
path. That file is then written over. -/
def Clobbers (d : Disk) : Prop :=
  s.isThere d = false ∧ ∃ e l b, d.makeDirectories s.path.parent = (.ok (), e) ∧
    e.destination s.path = .file l b ∧ b ≠ Utf8.encode header

/-- The header, at the place where the store was made if nothing was there before. -/
def headOf (d : Disk) (r : Except Failure Bool) (e : Disk) (l : Location) : List UInt8 :=
  match r with
  | .ok false =>
    if d.at? l = none ∧ e.resolve s.path = .file l (Utf8.encode header) then Utf8.encode header
    else []
  | _ => []

/-- The block that an update wrote, at the place where the store leads. -/
def tailOf (d : Disk) (r : Except Failure Update) (l : Location) : List UInt8 :=
  match r with
  | .ok u =>
    if u.written = true ∧ (d.resolve s.path).place? = some l then
      Utf8.encode (Additions.block (s.tail d) u.added)
    else []
  | .error _ => []

variable {s} {d e : Disk} {found : List String} {known : Option (List String)} {dryRun : Bool}

theorem Ensured.parts {r : Except Failure Bool} (h : s.Ensured d r e) :
    Disk.Made s.path.parent d e ∧ r ≠ .ok false ∨
      ∃ d₁, r = .ok false ∧ s.isThere d = false ∧ d.makeDirectories s.path.parent = (.ok (), d₁) ∧
        Disk.Made s.path.parent d d₁ ∧ d₁.replace s.path (Utf8.encode header) = .ok e := by
  have hmade := d.makeDirectories_made s.path.parent
  cases h with
  | there => exact .inl ⟨.refl d, by simp⟩
  | blocked _ hm =>
    rw [hm] at hmade
    exact .inl ⟨hmade, by simp⟩
  | refused _ hm =>
    rw [hm] at hmade
    exact .inl ⟨hmade, by simp⟩
  | made h hm hwrite =>
    rw [hm] at hmade
    exact .inr ⟨_, rfl, h, hm, hmade, hwrite⟩

/-- The header goes to a vacant place, or to a file that holds no more than the header. -/
theorem grown_header {d₁ : Disk} (hfile : ∀ l b, d₁.at? l = some (.file b) → d.at? l = some (.file b))
    (hkeeps : d.Keeps d₁) (hc : ∀ l b, d₁.destination s.path = .file l b → b = Utf8.encode header)
    (h : d₁.replace s.path (Utf8.encode header) = .ok e) :
    Disk.Grown (· = s.path) (s.headOf d (.ok false) e) Disk.nowhere d₁ e := by
  obtain ⟨l, old, hr, rfl, -, hres⟩ := Disk.update_ok h
  have hdest := Disk.destination_of_update h
  rcases hr with hr | ⟨hr, rfl⟩
  · obtain rfl := hc l old (hdest.trans hr)
    have hl := hfile l _ (Disk.at?_of_resolve hr)
    have hhead : s.headOf d (.ok false) (d₁.put l (.file (Utf8.encode header))) =
        Disk.nowhere := by
      funext m
      rw [headOf, if_neg]
      · rfl
      · rintro ⟨hnone, hm⟩
        rw [hres] at hm
        cases hm
        rw [hl] at hnone
        cases hnone
    have hput := Disk.grown_put_file hr []
    rw [Disk.only_nil, List.append_nil] at hput
    rwa [hhead]
  · have hl := hkeeps.at?_none (Disk.at?_of_vacant hr)
    have hhead : s.headOf d (.ok false) (d₁.put l (.file (Utf8.encode header))) =
        Disk.only l (Utf8.encode header) := by
      funext m
      rw [headOf, hres, Disk.only]
      by_cases hm : m = l
      · subst hm
        rw [if_pos ⟨hl, rfl⟩, if_pos rfl]
      · rw [if_neg hm, if_neg]
        rintro ⟨-, hf⟩
        cases hf
        exact hm rfl
    have hput := Disk.grown_put_vacant hr (Utf8.encode header) []
    rw [Disk.only_nil, List.append_nil] at hput
    rwa [hhead]

theorem Ensured.grown {r : Except Failure Bool} (h : s.Ensured d r e) (hc : ¬ s.Clobbers d) :
    Disk.Grown (· = s.path) (s.headOf d r e) Disk.nowhere d e := by
  rcases h.parts with ⟨hmade, hr⟩ | ⟨d₁, rfl, hthere, hm, hmade, hwrite⟩
  · have hhead : s.headOf d r e = Disk.nowhere := by
      funext l
      unfold headOf
      split
      · exact absurd rfl hr
      · rfl
    rw [hhead]
    exact Disk.grown_made hmade
  · have hgrown := Disk.grown_made hmade
    refine hgrown.trans (grown_header ?_ hgrown.keeps ?_ hwrite)
    · intro l b hl
      exact Disk.at?_of_made hmade hl (by simp)
    · intro l b hd
      refine Decidable.byContradiction fun hb => ?_
      exact hc ⟨hthere, d₁, l, b, hm, hd, hb⟩

theorem Reconciled.grown {r : Except Failure Update}
    (h : s.Reconciled d found known dryRun r e) :
    Disk.Grown (· = s.path) Disk.nowhere (s.tailOf d r) d e := by
  have hnot {u : Update} (hu : u.written = false) : s.tailOf d (.ok u) = Disk.nowhere := by
    funext l
    rw [tailOf, if_neg (by simp [hu])]
    rfl
  cases h with
  | nothing h =>
    rw [hnot rfl]
    exact .refl _ d
  | dry =>
    rw [hnot rfl]
    exact .refl _ d
  | failed =>
    rw [hnot rfl]
    exact .refl _ d
  | nul => exact .refl _ d
  | written h hne hdry hwrite =>
    rename_i added
    obtain ⟨l, old, hr, rfl, -, -⟩ := Disk.update_ok hwrite
    have hplace : (d.resolve s.path).place? = some l := by
      rcases hr with hr | ⟨hr, -⟩ <;> rw [hr] <;> rfl
    have htail : s.tailOf d (.ok { added, written := true }) =
        Disk.only l (Utf8.encode (Additions.block (s.tail d) added)) := by
      funext m
      rw [tailOf, hplace]
      simp only [true_and, Option.some.injEq, Disk.only, eq_comm]
    rw [htail]
    rcases hr with hr | ⟨hr, rfl⟩
    · exact Disk.grown_put_file hr _
    · rw [← Disk.only_nil l]
      exact Disk.grown_put_vacant hr [] _

/-- Even a file that is written over is a file still, and holds the header then. -/
theorem Ensured.keeps {r : Except Failure Bool} (h : s.Ensured d r e) :
    d.Keeps e ∧ ∀ l b, d.at? l = some (.file b) →
      e.at? l = some (.file b) ∨ e.at? l = some (.file (Utf8.encode header)) := by
  have hfile {d₁ : Disk} (hmade : Disk.Made s.path.parent d d₁) (l : Location) (b : List UInt8)
      (hl : d.at? l = some (.file b)) : d₁.at? l = some (.file b) := by
    simpa [Disk.nowhere] using (Disk.grown_made hmade).file l b hl
  rcases h.parts with ⟨hmade, -⟩ | ⟨d₁, -, -, -, hmade, hwrite⟩
  · exact ⟨(Disk.grown_made hmade).keeps, fun l b hl => .inl (hfile hmade l b hl)⟩
  · obtain ⟨m, old, hr, rfl, hkeeps, -⟩ := Disk.update_ok hwrite
    refine ⟨(Disk.grown_made hmade).keeps.trans hkeeps, ?_⟩
    intro l b hl
    rw [Disk.at?_put _ l _ (Disk.ne_nil_of_resolve hr)]
    split
    · exact .inr rfl
    · exact .inl (hfile hmade l b hl)

theorem Clobbers.lost {r : Except Failure Bool} (hc : s.Clobbers d) (h : s.Ensured d r e) :
    ∃ l b, d.at? l = some (.file b) ∧ b ≠ Utf8.encode header ∧
      e.at? l = some (.file (Utf8.encode header)) := by
  obtain ⟨hthere, d₁, l, b, hm, hdest, hb⟩ := hc
  have hl := Disk.at?_of_resolve (Disk.resolve_of_destination hdest (by simp))
  have hmade := d.makeDirectories_made s.path.parent
  rw [hm] at hmade
  have hreplace : d₁.replace s.path (Utf8.encode header) =
      .ok (d₁.put l (.file (Utf8.encode header))) := by
    rw [Disk.replace, Disk.update, hdest]
  refine ⟨l, b, Disk.at?_of_made hmade hl (by simp), hb, ?_⟩
  cases h with
  | there h =>
    rw [hthere] at h
    cases h
  | blocked h hm' =>
    rw [hm] at hm'
    cases hm'
  | refused h hm' hwrite =>
    rw [hm] at hm'
    cases hm'
    rw [hreplace] at hwrite
    cases hwrite
  | made h hm' hwrite =>
    rw [hm] at hm'
    cases hm'
    rw [hreplace] at hwrite
    cases hwrite
    rw [Disk.at?_put _ l _ (Disk.ne_nil_of_at?_file hl), if_pos rfl]

theorem headOf_held (s : Store) {r : Except Failure Bool} {l : Location} (h : d.at? l ≠ none) :
    s.headOf d r e l = [] := by
  unfold headOf
  split
  · exact if_neg fun hn => h hn.1
  · rfl

/-- The header has no `=`, and each block has one. -/
theorem equals_mem_tailOf (s : Store) (d : Disk) (r : Except Failure Update) (l : Location) :
    s.tailOf d r l = [] ∨ 61 ∈ s.tailOf d r l := by
  unfold tailOf
  cases r with
  | error f => exact .inl rfl
  | ok u =>
    simp only
    split
    · by_cases hne : u.added = []
      · rw [hne, Additions.block_nil]
        exact .inl rfl
      · exact .inr (Additions.equals_mem_encode_block _ hne)
    · exact .inl rfl

end Store
end EnvKeeper
