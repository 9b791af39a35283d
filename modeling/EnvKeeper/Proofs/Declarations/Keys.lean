import EnvKeeper.Proofs.Declarations.Bindings
import EnvKeeper.Proofs.Text.Name
import Mathlib.Data.List.TakeWhile

/-! Where the keys of a text come from. None is empty, and one that holds what no bare key may hold stands
between quotes. -/

namespace EnvKeeper.Declarations

/-- What the text `s` shows of a key: it stands bare there, or between quotes. -/
structure KeyOf (s k : List Char) : Prop where
  ne_nil : k ≠ []
  shown : (∀ x ∈ k, isKeyChar x = true) ∨ '\'' :: k ++ ['\''] <:+: s

theorem KeyOf.of_suffix {s t k : List Char} (h : KeyOf s k) (hs : s <:+ t) : KeyOf t k :=
  ⟨h.ne_nil, h.shown.imp_right fun h => h.trans hs.isInfix⟩

/-- A character that no bare key holds is between the quotes. -/
theorem KeyOf.quoted {s k : List Char} (h : KeyOf s k) {x : Char} (hx : x ∈ k)
    (hkey : isKeyChar x = false) : '\'' :: k ++ ['\''] <:+: s :=
  h.shown.resolve_left fun hall => by
    rw [hall x hx] at hkey
    cases hkey

namespace Cursor

variable {c d : Cursor}

theorem keyOf_key {k : List Char} (h : c.key = .ok (some k, d)) : KeyOf c.rest k := by
  unfold key at h
  split at h
  · cases h
  · next s hs =>
    split at h
    · next x k q rest ht hr =>
      cases h
      have hq : q = '\'' := by simpa using eq_false_of_dropWhile hr
      refine ⟨List.cons_ne_nil x k, .inr (List.IsPrefix.isInfix ⟨rest, ?_⟩)⟩
      rw [hs, ← List.takeWhile_append_dropWhile (p := (· != '\'')) (l := s), ht, hr, hq]
      simp
    · cases h
  · simp only at h
    split at h
    · cases h
    · next hne =>
      cases h
      refine ⟨fun he => hne (List.isEmpty_iff.2 he), .inl fun x hx => ?_⟩
      exact List.mem_takeWhile_imp hx

theorem keyOf_bound {k v : String} (h : (k, v) ∈ c.bound) : KeyOf c.rest k.toList := by
  induction c using Cursor.items.induct with
  | case1 c hc =>
    rw [bound_of_none hc] at h
    cases h
  | case2 c i d hc _ ih =>
    rw [bound_of_some hc] at h
    rcases List.mem_append.1 h with h | h
    · rcases next?_cases hc with ⟨⟨key, value⟩, rfl, hs⟩ | ⟨e, rfl, -⟩
      · cases key with
        | none => cases h
        | some key =>
          cases List.mem_singleton.1 h
          obtain ⟨e, -, hk, -⟩ := statement_ok hs
          rw [String.toList_ofList]
          exact ((keyOf_key hk).of_suffix (skipExport_suffix _)).of_suffix (skipWhile_suffix _ _)
      · cases h
    · exact (ih h).of_suffix (next?_suffix hc)

end Cursor

theorem keyOf_entries {text : List Char} {k : String} (h : k ∈ (entries text).keys) :
    KeyOf text k.toList := by
  obtain ⟨⟨_, v⟩, hmem, rfl⟩ := List.mem_map.1 h
  rw [entries_eq_update] at hmem
  rcases Table.mem_of_mem_update hmem with h | h
  · cases h
  · rw [bindings_eq] at h
    exact (Cursor.keyOf_bound h).of_suffix (withoutMark_suffix text)

theorem isKeyChar_eq_false {x : Char} (h : x = '=' ∨ x = '#' ∨ isBlank x = true) :
    isKeyChar x = false := by
  rcases h with rfl | rfl | h
  · rfl
  · rfl
  · simp [isKeyChar, h]

end EnvKeeper.Declarations
