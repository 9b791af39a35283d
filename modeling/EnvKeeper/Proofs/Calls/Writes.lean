import EnvKeeper.Proofs.Disk.Tree
import EnvKeeper.Proofs.Store.Growth

/-! What calls write, one part after the other. As long as no store is made over a file, each file
keeps its bytes and gets those of the blocks; and once one is made over a file, the bytes of that
file are not a beginning of what is there any more with nothing but blocks behind them. -/

namespace EnvKeeper

namespace Store

variable {s : Store} {d e : Disk}

theorem Ensured.tree {r : Except Failure Bool} (h : s.Ensured d r e) (ht : d.IsTree) : e.IsTree := by
  rcases h.parts with ⟨hmade, -⟩ | ⟨d₁, -, -, -, hmade, hwrite⟩
  · exact ht.made hmade
  · exact (ht.made hmade).update hwrite

theorem Reconciled.tree {found : List String} {known : Option (List String)} {dryRun : Bool}
    {r : Except Failure Update} (h : s.Reconciled d found known dryRun r e) (ht : d.IsTree) :
    e.IsTree := by
  cases h with
  | nothing => exact ht
  | dry => exact ht
  | failed => exact ht
  | nul => exact ht
  | written _ _ _ hwrite => exact ht.update hwrite

/-- Where everything lies in a directory, a store is made over a file only for a path that goes up
behind another name. -/
theorem not_clobbers_of_straight (ht : d.IsTree) (hp : s.path.IsStraight) : ¬ s.Clobbers d := by
  rintro ⟨hthere, e, l, b, hm, hdest, -⟩
  have hmade := d.makeDirectories_made s.path.parent
  rw [hm] at hmade
  have hresolve := Disk.resolve_of_destination hdest (by simp)
  have hbefore := Disk.resolve_made_straight ht hp hmade hresolve
  rw [s.isThere_of_resolve hbefore] at hthere
  cases hthere

end Store

/-- A part of a call that may write: a store is made, or it is given the names that it lacks. -/
inductive Write where
  | make (s : Store)
  | add (s : Store) (found : List String) (known : Option (List String))

namespace Write

def store : Write → Store
  | .make s => s
  | .add s _ _ => s

/-- The disk after the write, whether or not it came to its end. -/
def on : Write → Disk → Disk
  | .make s, d => (s.ensure.on d).2.disk
  | .add s found known, d => ((s.reconcile found known false).on d).2.disk

def head : Write → Disk → Location → List UInt8
  | .make s, d => s.headOf d (s.ensure.on d).1 (s.ensure.on d).2.disk
  | .add _ _ _, _ => Disk.nowhere

def tail : Write → Disk → Location → List UInt8
  | .make _, _ => Disk.nowhere
  | .add s found known, d => s.tailOf d ((s.reconcile found known false).on d).1

def Clobbers : Write → Disk → Prop
  | .make s, d => s.Clobbers d
  | .add _ _ _, _ => False

variable (w : Write) (d : Disk)

theorem grown (h : ¬ w.Clobbers d) :
    Disk.Grown (· = w.store.path) (w.head d) (w.tail d) d (w.on d) := by
  cases w with
  | make s => exact (s.ensure_ensured { disk := d }).grown h
  | add s found known => exact (s.reconcile_reconciled found known false { disk := d }).grown

theorem keeps : d.Keeps (w.on d) := by
  cases w with
  | make s => exact (s.ensure_ensured { disk := d }).keeps.1
  | add s found known => exact ((Write.add s found known).grown d id).keeps

theorem file {l : Location} {b : List UInt8} (h : d.at? l = some (.file b)) :
    (w.on d).at? l = some (.file (b ++ w.tail d l)) ∨
      w.tail d l = [] ∧ (w.on d).at? l = some (.file (Utf8.encode Store.header)) := by
  cases w with
  | make s =>
    rcases (s.ensure_ensured { disk := d }).keeps.2 l b h with hl | hl
    · exact .inl (by rw [tail, Disk.nowhere, List.append_nil]; exact hl)
    · exact .inr ⟨rfl, hl⟩
  | add s found known => exact .inl (((Write.add s found known).grown d id).file l b h)

theorem head_held {l : Location} (h : d.at? l ≠ none) : w.head d l = [] := by
  cases w with
  | make s => exact s.headOf_held h
  | add s found known => rfl

theorem equals_mem_tail (l : Location) : w.tail d l = [] ∨ 61 ∈ w.tail d l := by
  cases w with
  | make s => exact .inl rfl
  | add s found known => exact s.equals_mem_tailOf d _ l

theorem tree {d : Disk} (h : d.IsTree) : (w.on d).IsTree := by
  cases w with
  | make s => exact (s.ensure_ensured { disk := d }).tree h
  | add s found known => exact (s.reconcile_reconciled found known false { disk := d }).tree h

end Write

namespace Writes

def run : List Write → Disk → Disk
  | [], d => d
  | w :: ws, d => run ws (w.on d)

def heads : List Write → Disk → Location → List UInt8
  | [], _, _ => []
  | w :: ws, d, l => w.head d l ++ heads ws (w.on d) l

def tails : List Write → Disk → Location → List UInt8
  | [], _, _ => []
  | w :: ws, d, l => w.tail d l ++ tails ws (w.on d) l

def Clobber : List Write → Disk → Prop
  | [], _ => False
  | w :: ws, d => w.Clobbers d ∨ Clobber ws (w.on d)

theorem run_append (ws ws' : List Write) (d : Disk) : run (ws ++ ws') d = run ws' (run ws d) := by
  induction ws generalizing d with
  | nil => rfl
  | cons w ws ih => exact ih (w.on d)

theorem clobber_append {ws ws' : List Write} {d : Disk} :
    Clobber (ws ++ ws') d ↔ Clobber ws d ∨ Clobber ws' (run ws d) := by
  induction ws generalizing d with
  | nil => simp [Clobber, run]
  | cons w ws ih => simp [Clobber, run, ih, or_assoc]

/-- Among `paths` are those of the stores that are written to. -/
theorem run_grown {paths : Path → Prop} {ws : List Write} {d : Disk}
    (hp : ∀ w ∈ ws, paths w.store.path) (h : ¬ Clobber ws d) :
    Disk.Grown paths (heads ws d) (tails ws d) d (run ws d) := by
  induction ws generalizing d with
  | nil => exact .refl _ d
  | cons w ws ih =>
    obtain ⟨hw, hws⟩ := not_or.1 h
    have hfirst : Disk.Grown paths (w.head d) (w.tail d) d (w.on d) := by
      refine (w.grown d hw).mono ?_
      rintro p rfl
      exact hp w List.mem_cons_self
    exact hfirst.trans (ih (fun w' hw' => hp w' (List.mem_cons_of_mem _ hw')) hws)

theorem run_keeps (ws : List Write) (d : Disk) : d.Keeps (run ws d) := by
  induction ws generalizing d with
  | nil => exact .refl d
  | cons w ws ih => exact (w.keeps d).trans (ih (w.on d))

theorem heads_held {ws : List Write} {d : Disk} {l : Location} (h : d.at? l ≠ none) :
    heads ws d l = [] := by
  induction ws generalizing d with
  | nil => rfl
  | cons w ws ih =>
    rw [heads, w.head_held d h, ih ((w.keeps d).at?_ne_none h)]
    rfl

/-- What is in a file: what was there with all the blocks behind it, or the header with the last ones,
and then there may have been blocks that are lost. -/
theorem run_file (ws : List Write) {d : Disk} {l : Location} {b : List UInt8}
    (h : d.at? l = some (.file b)) :
    ∃ c x y, tails ws d l = x ++ y ∧ (x = [] ∨ 61 ∈ x) ∧
      (c = b ∧ x = [] ∨ c = Utf8.encode Store.header) ∧
      (run ws d).at? l = some (.file (c ++ y)) := by
  induction ws generalizing d b with
  | nil => exact ⟨b, [], [], rfl, .inl rfl, .inl ⟨rfl, rfl⟩, by rw [List.append_nil]; exact h⟩
  | cons w ws ih =>
    rcases w.file d h with hw | ⟨hnone, hw⟩
    · obtain ⟨c, x, y, htails, hx, hc, hrun⟩ := ih hw
      rcases hc with ⟨rfl, rfl⟩ | rfl
      · refine ⟨b, [], w.tail d l ++ y, ?_, .inl rfl, .inl ⟨rfl, rfl⟩, ?_⟩
        · rw [tails, htails]
          rfl
        · rw [← List.append_assoc]
          exact hrun
      · refine ⟨_, w.tail d l ++ x, y, ?_, ?_, .inr rfl, hrun⟩
        · rw [tails, htails, List.append_assoc]
        · rcases w.equals_mem_tail d l with hw | hw
          · rwa [hw]
          · exact .inr (List.mem_append_left _ hw)
    · obtain ⟨c, x, y, htails, hx, hc, hrun⟩ := ih hw
      refine ⟨c, x, y, ?_, hx, .inr ?_, hrun⟩
      · rw [tails, hnone, htails]
        rfl
      · rcases hc with ⟨hc, -⟩ | hc <;> exact hc

/-- If a store was made over a file, then some file does not have what it should have. -/
theorem lost_of_clobber {ws : List Write} {d : Disk} (h : Clobber ws d) :
    ∃ l c, (run ws d).at? l = some (.file c) ∧
      ((∃ b, d.at? l = some (.file b) ∧ c ≠ b ++ tails ws d l) ∨
        d.at? l = none ∧ c ≠ heads ws d l ++ tails ws d l) := by
  induction ws generalizing d with
  | nil => exact h.elim
  | cons w ws ih =>
    rw [Clobber] at h
    by_cases hw : w.Clobbers d
    · cases w with
      | add s found known => exact hw.elim
      | make s =>
        obtain ⟨l, b, hl, hb, hmade⟩ := hw.lost (s.ensure_ensured { disk := d })
        change ((Write.make s).on d).at? l = _ at hmade
        obtain ⟨c, x, y, htails, hx, hc, hrun⟩ := run_file ws hmade
        obtain rfl : c = Utf8.encode Store.header := by
          rcases hc with ⟨hc, -⟩ | hc <;> exact hc
        refine ⟨l, _, hrun, .inl ⟨b, hl, fun he => ?_⟩⟩
        rw [tails, Write.tail, Disk.nowhere, List.nil_append, htails, ← List.append_assoc] at he
        have he := List.append_cancel_right he
        rcases hx with rfl | hx
        · rw [List.append_nil] at he
          exact hb he.symm
        · have hmem : 61 ∈ Utf8.encode Store.header := by
            rw [he]
            exact List.mem_append_right _ hx
          exact absurd hmem (by decide)
    · obtain ⟨l, c, hrun, hlost⟩ := ih (h.resolve_left hw)
      have hgrown := w.grown d hw
      refine ⟨l, c, hrun, ?_⟩
      rcases hlost with ⟨b₁, hl, hc⟩ | ⟨hl, hc⟩
      · rcases hgrown.before hl with ⟨b, hd, rfl⟩ | ⟨hd, rfl⟩
        · refine .inl ⟨b, hd, ?_⟩
          rwa [tails, ← List.append_assoc]
        · refine .inr ⟨hd, ?_⟩
          rw [heads, heads_held (by rw [hl]; simp), List.append_nil, tails, ← List.append_assoc]
          exact hc
      · obtain ⟨hhead, htail⟩ := hgrown.vacant l hl
        refine .inr ⟨(w.keeps d).at?_none hl, ?_⟩
        rwa [heads, tails, hhead, htail]

/-- Writes only add to a disk exactly if no store is made over a file. -/
theorem grown_iff {paths : Path → Prop} {ws : List Write} {d : Disk}
    (hp : ∀ w ∈ ws, paths w.store.path) :
    Disk.Grown paths (heads ws d) (tails ws d) d (run ws d) ↔ ¬ Clobber ws d := by
  refine ⟨?_, run_grown hp⟩
  intro hgrown h
  obtain ⟨l, c, hrun, hlost⟩ := lost_of_clobber h
  rcases hgrown.before hrun with ⟨b, hd, hc⟩ | ⟨hd, hc⟩
  · rcases hlost with ⟨b', hd', hne⟩ | ⟨hd', -⟩
    · rw [hd] at hd'
      cases hd'
      exact hne hc
    · rw [hd] at hd'
      cases hd'
  · rcases hlost with ⟨b', hd', -⟩ | ⟨-, hne⟩
    · rw [hd] at hd'
      cases hd'
    · exact hne hc

theorem not_clobber_of_straight {ws : List Write} {d : Disk} (ht : d.IsTree)
    (hp : ∀ w ∈ ws, w.store.path.IsStraight) : ¬ Clobber ws d := by
  induction ws generalizing d with
  | nil => exact id
  | cons w ws ih =>
    refine not_or.2 ⟨?_, ih (w.tree ht) fun w' hw' => hp w' (List.mem_cons_of_mem _ hw')⟩
    cases w with
    | make s => exact s.not_clobbers_of_straight ht (hp (.make s) List.mem_cons_self)
    | add s found known => exact id

end Writes
end EnvKeeper
