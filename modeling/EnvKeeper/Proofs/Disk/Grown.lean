import EnvKeeper.Disk.Arrange
import EnvKeeper.Proofs.Disk.Keeps

/-! A disk that only grew. What was there is there, files have got bytes at their ends, and what is
new is a file that some path leads to or a directory on the way to one. -/

namespace EnvKeeper

/-- The path `q` names a directory on the way to `p`. -/
structure Path.IsOnWay (q p : Path) : Prop where
  anchor : q.anchor = p.anchor
  names : q.names <+: p.names
  proper : q.names ≠ p.names

namespace Disk

/-- From `d` to `e` each file got the bytes `tail`, behind the bytes `head` if it is new. The paths
that were written to are among `paths`. -/
structure Grown (paths : Path → Prop) (head tail : Location → List UInt8) (d e : Disk) : Prop where
  keeps : d.Keeps e
  file : ∀ l b, d.at? l = some (.file b) → e.at? l = some (.file (b ++ tail l))
  fresh : ∀ l x, d.at? l = none → e.at? l = some x →
    (x = .file (head l ++ tail l) ∧ ∃ p b, paths p ∧ e.resolve p = .file l b) ∨
      x = .directory ∧ ∃ p q, paths p ∧ q.IsOnWay p ∧ e.slot? q = some l
  vacant : ∀ l, e.at? l = none → head l = [] ∧ tail l = []
  held : ∀ l, d.at? l ≠ none → head l = []

variable {paths : Path → Prop} {head tail head' tail' : Location → List UInt8} {d e f : Disk}

theorem Grown.refl (paths : Path → Prop) (d : Disk) :
    Grown paths (fun _ => []) (fun _ => []) d d where
  keeps := .refl d
  file l b h := by simpa using h
  fresh l x h h' := by simp [h] at h'
  vacant l _ := ⟨rfl, rfl⟩
  held l _ := rfl

theorem Grown.mono {paths' : Path → Prop} (h : Grown paths head tail d e)
    (hp : ∀ p, paths p → paths' p) : Grown paths' head tail d e where
  keeps := h.keeps
  file := h.file
  fresh l x hd he := by
    rcases h.fresh l x hd he with ⟨hx, p, b, hpath, hr⟩ | ⟨hx, p, q, hpath, hq, hs⟩
    · exact .inl ⟨hx, p, b, hp p hpath, hr⟩
    · exact .inr ⟨hx, p, q, hp p hpath, hq, hs⟩
  vacant := h.vacant
  held := h.held

theorem Keeps.at?_ne_none (h : d.Keeps e) {l : Location} (hl : d.at? l ≠ none) :
    e.at? l ≠ none := by
  intro he
  cases hd : d.at? l with
  | none => exact hl hd
  | some x =>
    cases x with
    | file b =>
      obtain ⟨b', hb⟩ := h.file l b hd
      rw [he] at hb
      cases hb
    | link t =>
      have := h.link l t hd
      rw [he] at this
      cases this
    | directory =>
      have := h.directory l hd
      rw [he] at this
      cases this

theorem Keeps.at?_none (h : d.Keeps e) {l : Location} (hl : e.at? l = none) : d.at? l = none :=
  Decidable.byContradiction fun hd => h.at?_ne_none hd hl

theorem Keeps.slot? (h : d.Keeps e) {q : Path} {l : Location} (hl : d.slot? q = some l) :
    e.slot? q = some l := by
  unfold Disk.slot? at hl ⊢
  split at hl
  · next m n hm hn =>
    rw [resolve_directory_keeps h hm, hn]
    exact hl
  · cases hl

/-- A file that is there was there, or is new. -/
theorem Grown.before (h : Grown paths head tail d e) {l : Location} {c : List UInt8}
    (he : e.at? l = some (.file c)) :
    (∃ b, d.at? l = some (.file b) ∧ c = b ++ tail l) ∨ d.at? l = none ∧ c = head l ++ tail l := by
  cases hd : d.at? l with
  | none =>
    rcases h.fresh l _ hd he with ⟨hc, -⟩ | ⟨hc, -⟩
    · cases hc
      exact .inr ⟨rfl, rfl⟩
    · cases hc
  | some x =>
    cases x with
    | file b =>
      have hfile := h.file l b hd
      rw [he] at hfile
      cases hfile
      exact .inl ⟨b, rfl, rfl⟩
    | link t =>
      have hlink := h.keeps.link l t hd
      rw [he] at hlink
      cases hlink
    | directory =>
      have hdir := h.keeps.directory l hd
      rw [he] at hdir
      cases hdir

theorem Grown.trans (h : Grown paths head tail d e) (h' : Grown paths head' tail' e f) :
    Grown paths (fun l => head l ++ head' l) (fun l => tail l ++ tail' l) d f where
  keeps := h.keeps.trans h'.keeps
  file l b hd := by
    rw [← List.append_assoc]
    exact h'.file l _ (h.file l b hd)
  fresh l x hd hf := by
    cases he : e.at? l with
    | none =>
      obtain ⟨hhead, htail⟩ := h.vacant l he
      simp only [hhead, htail, List.nil_append]
      exact h'.fresh l x he hf
    | some y =>
      have hhead := h'.held l (by simp [he])
      rcases h.fresh l y hd he with ⟨rfl, p, b, hp, hr⟩ | ⟨rfl, p, q, hp, hq, hs⟩
      · have hfile := h'.file l _ he
        rw [hf] at hfile
        obtain ⟨b', hr'⟩ := resolve_file_keeps h'.keeps hr
        refine .inl ⟨?_, p, b', hp, hr'⟩
        rw [hhead, List.append_nil, ← List.append_assoc]
        exact Option.some.inj hfile
      · have hdir := h'.keeps.directory l he
        rw [hf] at hdir
        exact .inr ⟨Option.some.inj hdir, p, q, hp, hq, h'.keeps.slot? hs⟩
  vacant l hf := by
    have he := h'.keeps.at?_none hf
    obtain ⟨hhead, htail⟩ := h.vacant l he
    obtain ⟨hhead', htail'⟩ := h'.vacant l hf
    simp [hhead, htail, hhead', htail']
  held l hd := by
    rw [h.held l hd, h'.held l (h.keeps.at?_ne_none hd), List.append_nil]

end Disk
end EnvKeeper
