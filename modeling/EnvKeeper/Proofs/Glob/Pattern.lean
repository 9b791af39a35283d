import EnvKeeper.Glob.Select
import Mathlib.Data.List.Forall2
import Mathlib.Data.List.Infix

/-! Which texts are patterns, and of what parts. A pattern is relative, has a part, and holds `**` as
a whole part only; and such a text is read. -/

namespace EnvKeeper

theorem bind_eq_ok {ε α β : Type} {x : Except ε α} {f : α → Except ε β} {b : β}
    (h : (x >>= f) = .ok b) : ∃ a, x = .ok a ∧ f a = .ok b := by
  cases x with
  | error e => cases h
  | ok a => exact ⟨a, rfl, h⟩

theorem mapM_eq_ok {α β ε : Type} {f : α → Except ε β} {l : List α} {r : List β} :
    l.mapM f = .ok r ↔ List.Forall₂ (fun a b => f a = .ok b) l r := by
  induction l generalizing r with
  | nil => cases r <;> simp [pure, Except.pure]
  | cons a l ih =>
    rw [List.mapM_cons]
    cases hf : f a with
    | error e => cases r <;> simp [bind, Except.bind, hf]
    | ok b =>
      cases hl : l.mapM f with
      | error e => cases r <;> simp [bind, Except.bind, hl, ← ih]
      | ok bs => cases r <;> simp [bind, Except.bind, pure, Except.pure, hf, hl, ← ih]

theorem exists_forall₂ {α β : Type} {R : α → β → Prop} {l : List α} (h : ∀ a ∈ l, ∃ b, R a b) :
    ∃ r, List.Forall₂ R l r := by
  induction l with
  | nil => exact ⟨[], .nil⟩
  | cons a l ih =>
    obtain ⟨b, hb⟩ := h a List.mem_cons_self
    obtain ⟨r, hr⟩ := ih fun a ha => h a (List.mem_cons_of_mem _ ha)
    exact ⟨b :: r, .cons hb hr⟩

theorem hasStars_iff {s : List Char} : hasStars s = true ↔ ['*', '*'] <:+: s := by
  fun_induction hasStars s with
  | case1 s => exact iff_of_true rfl ⟨[], s, rfl⟩
  | case2 c s hne ih =>
    rw [ih, List.infix_cons_iff]
    refine (or_iff_right ?_).symm
    rintro ⟨r, hr⟩
    obtain ⟨hc, hs⟩ := List.cons.inj hr
    exact hne r hc.symm hs.symm
  | case3 => simp

def IsWild (n : String) : Prop := ∃ c ∈ n.toList, c = '*' ∨ c = '?' ∨ c = '['

namespace Pattern

/-- A pattern that a last slash makes ask for directories. -/
def endsInSlash (t : String) : Bool := decide (t.toList.getLast? = some '/')

structure IsValid (t : String) : Prop where
  relative : (Path.ofText t).anchor = .relative
  parts : (Path.ofText t).names ≠ []
  stars : ∀ n ∈ (Path.ofText t).names, ['*', '*'] <:+: n.toList → n = "**"

theorem isValid_iff {t : String} : IsValid t ↔ (Path.ofText t).anchor = .relative ∧
    (Path.ofText t).names ≠ [] ∧
    ∀ n ∈ (Path.ofText t).names, ['*', '*'] <:+: n.toList → n = "**" :=
  ⟨fun h => ⟨h.1, h.2, h.3⟩, fun h => ⟨h.1, h.2.1, h.2.2⟩⟩

instance (t : String) : Decidable (IsValid t) := decidable_of_iff' _ isValid_iff

/-- What a last slash leaves. -/
def ending (slash : Bool) : Pattern := if slash then [.slash] else []

theorem read_part {n : String} (h : ['*', '*'] <:+: n.toList → n = "**") :
    ∃ p, Part.read n = .ok p := by
  unfold Part.read
  by_cases hn : n = "**"
  · exact ⟨_, if_pos hn⟩
  · have hs : hasStars n.toList = false := by
      simpa using mt hasStars_iff.1 (mt h hn)
    simp only [if_neg hn, hs, Bool.false_eq_true, if_false]
    split
    · exact ⟨_, rfl⟩
    · exact ⟨_, rfl⟩

theorem IsValid.ne_empty {t : String} (h : IsValid t) : t ≠ "" := by
  rintro rfl
  exact h.parts (by decide)

theorem read_of_valid {t : String} (h : IsValid t) :
    ∃ ps, read t = .ok (ps ++ ending (endsInSlash t)) ∧
      List.Forall₂ (fun n p => Part.read n = .ok p) (Path.ofText t).names ps := by
  obtain ⟨ps, hps⟩ := exists_forall₂ fun n hn => read_part (h.stars n hn)
  refine ⟨ps, ?_, hps⟩
  simp [read, h.ne_empty, h.relative, h.parts, mapM_eq_ok.2 hps, ending, endsInSlash, bind,
    Except.bind, pure, Except.pure]

theorem isValid_default : ∀ t ∈ Selection.defaultPatterns, IsValid t := by decide

/-- What holds of the default patterns and of all that are given holds of those that count. -/
theorem forall_used {P : String → Prop} {s : Selection}
    (hdefault : ∀ t ∈ Selection.defaultPatterns, P t) (h : ∀ t ∈ s.patterns, P t) :
    ∀ t ∈ s.patternsUsed, P t := by
  unfold Selection.patternsUsed
  split
  · exact hdefault
  · exact h

theorem isValid_used {s : Selection} (h : ∀ t ∈ s.patterns, IsValid t) :
    ∀ t ∈ s.patternsUsed, IsValid t := forall_used isValid_default h

end Pattern
end EnvKeeper
