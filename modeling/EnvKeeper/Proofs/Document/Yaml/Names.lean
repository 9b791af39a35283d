import EnvKeeper.Proofs.Document.Yaml.RoundTrip
import EnvKeeper.Proofs.Document.Yaml.Typed
import Mathlib.Data.List.Basic

/-! Names and lists of names as YAML. A name has no character to escape and none at which a line could
end, so it stands in one line, and in quotes just if it would be read as something else than a text. -/

namespace EnvKeeper.Yaml

/-- A name as it is written. -/
def nameScalar (n : List Char) : List Char :=
  if IsTypedName n then '\'' :: n ++ ['\''] else n

section Scalars

variable {n : List Char}

theorem printable_of_isNameChar : ∀ c, isNameChar c = true → isPrintable c = true :=
  forall_isNameChar (by decide)

theorem hasPair_of_not_mem {a b : Char} {s : List Char} (h : a ∉ s ∨ b ∉ s) :
    hasPair a b s = false := by
  rw [← Bool.not_eq_true, hasPair_iff]
  intro hpair
  rcases h with h | h
  · exact h (hpair.subset List.mem_cons_self)
  · exact h (hpair.subset (List.mem_cons_of_mem a List.mem_cons_self))

theorem startsReserved_name (hn : IsName n) : startsReserved n = false := by
  have hfirst : ∀ c, isNameChar c = true →
      "#,[]\x7b\x7d&*!|>'\"%@\x60".toList.contains c = false ∧
        (c == '?') = false ∧ (c == ':') = false ∧ (c == '-') = false ∧ (c == '.') = false :=
    forall_isNameChar (by decide)
  obtain ⟨c, s, rfl⟩ := List.exists_cons_of_ne_nil hn.1
  obtain ⟨hlist, hkey, hcolon, hhyphen, hpoint⟩ := hfirst c (hn.2 c List.mem_cons_self)
  rw [startsReserved, hlist, hkey, hcolon, hhyphen, hpoint]
  rfl

theorem isBare_name (hn : IsName n) : isBare n = true := by
  have hspace : ' ' ∉ n := hn.not_mem (by decide)
  have hcolon : ':' ∉ n := hn.not_mem (by decide)
  have hhead : n.head? ≠ some ' ' := fun h => hspace (List.mem_of_head? h)
  have hlast : n.getLast? ≠ some ' ' := fun h => hspace (List.mem_of_getLast? h)
  have hlast' : n.getLast? ≠ some ':' := fun h => hcolon (List.mem_of_getLast? h)
  simp [isBare, startsReserved_name hn, hhead, hlast, hlast', hasPair_of_not_mem (.inl hcolon),
    hasPair_of_not_mem (.inl hspace)]

/-- Quotes are for names of another type. Double ones are for none. -/
theorem style_name (hn : IsName n) : style n = if IsTypedName n then .single else .bare := by
  have hprintable : n.all isPrintable = true :=
    List.all_eq_true.2 fun c hc => printable_of_isNameChar c (hn.2 c hc)
  have hsingle : (n.all fun c => isPrintable c || c == '\n') = true :=
    List.all_eq_true.2 fun c hc => by rw [printable_of_isNameChar c (hn.2 c hc)]; rfl
  have hspace : ' ' ∉ n := hn.not_mem (by decide)
  rw [style, hprintable, isBare_name hn, hsingle, hasPair_of_not_mem (.inl hspace),
    hasPair_of_not_mem (.inr hspace)]
  simp only [← isTyped_name_iff hn]
  cases isTyped n <;> rfl

/-- Without white space there is nothing to fold. -/
theorem flow_solid {p : Place} {q : Char → List Char} {s : List Char}
    (hs : ∀ c ∈ s, isWhite c = false) (before : Char) (col : Nat) :
    flow p q before col s = s.flatMap q := by
  induction s generalizing before col with
  | nil => rfl
  | cons c s ih =>
    obtain ⟨hc, hs⟩ := List.forall_mem_cons.1 hs
    rw [flow_char hc, ih hs, List.flatMap_cons]

theorem scalar_name (hn : IsName n) (p : Place) (col : Nat) : scalar p col n = nameScalar n := by
  have hsolid : ∀ c ∈ n, isWhite c = false := fun c hc =>
    isWhite_eq_false_iff.2 ⟨fun h => hn.not_mem (by decide) (h ▸ hc),
      fun h => hn.not_mem (by decide) (h ▸ hc)⟩
  have hquote : ∀ c ∈ n, quoteSingle c = [c] := fun c hc =>
    if_neg fun h => hn.not_mem (by decide) (h ▸ hc)
  have hsingle : flow p quoteSingle ' ' (col + 1) n = n := by
    rw [flow_solid hsolid, List.flatMap_congr hquote, List.flatMap_singleton']
  have hbare : flow p (fun c => [c]) ' ' col n = n := by
    rw [flow_solid hsolid, List.flatMap_singleton']
  rw [scalar, style_name hn, nameScalar]
  by_cases htyped : IsTypedName n
  · rw [if_pos htyped, if_pos htyped, hsingle]
  · rw [if_neg htyped, if_neg htyped, hbare]

theorem ofBare_name_iff {n : String} (hn : IsName n.toList) :
    ofBare n.toList = some (.text n) ↔ ¬ IsTypedName n.toList := by
  rw [← isTyped_name_iff hn, Bool.not_eq_true, ofBare]
  cases isTyped n.toList with
  | false => simp
  | true =>
    rw [if_pos rfl]
    split <;> simp

theorem readScalar_name {n : String} (hn : IsName n.toList) {m : Nat} {rest : List Char}
    {next : Spot} (h : Follows m rest next) (hm : m < width) :
    readScalar m (nameScalar n.toList ++ rest) = some (.text n, rest) := by
  rw [← scalar_name hn ⟨m, false⟩ m]
  exact readScalar_scalar (Nat.le_refl m) hm n h.closesLine h.plainPiece

theorem no_break_nameScalar (hn : IsName n) : '\n' ∉ nameScalar n := by
  have hbreak : '\n' ∉ n := hn.not_mem (by decide)
  rw [nameScalar]
  split
  · simp [hbreak]
  · exact hbreak

end Scalars

section Lists

/-- The lines of rows from column `n` on, the first of which stands behind `lead`. -/
theorem lines_rows (lead : List Char) (n : Nat) (x : List Char) (l : List (List Char)) :
    splitOn '\n' (lead ++ rows n (x :: l)) =
      splitOn '\n' (lead ++ x) ++ l.flatMap fun y => splitOn '\n' (spaces n ++ y) := by
  induction l generalizing lead x with
  | nil => rw [rows_singleton, List.flatMap_nil, List.append_nil]
  | cons y l ih =>
    have hrows : lead ++ rows n (x :: y :: l) = (lead ++ x) ++ '\n' :: (spaces n ++ rows n (y :: l)) := by
      rw [rows_cons n x (List.cons_ne_nil y l), ← List.append_assoc]
      rfl
    rw [hrows, splitOn_append, ih, List.flatMap_cons]

def nameItem (n : String) : List Char := '-' :: ' ' :: nameScalar n.toList

/-- The lines of a list of names in column `n`. The first one stands behind `lead`. -/
def nameLines (lead : List Char) (n : Nat) : List String → List (List Char)
  | [] => [lead ++ ['[', ']']]
  | m :: names => (lead ++ nameItem m) :: names.map fun m => spaces n ++ nameItem m

/-- The lines of a list of names and its key in column `n`. -/
def listLines (n : Nat) (key : String) (names : List String) : List (List Char) :=
  if isSimpleKey key.toList then
    if names.isEmpty then [spaces n ++ simpleKey n key ++ [' ', '[', ']']]
    else (spaces n ++ simpleKey n key) :: nameLines (spaces n) n names
  else
    splitOn '\n' (spaces n ++ '?' :: ' ' :: text n (n + 2) key)
      ++ nameLines (spaces n ++ [':', ' ']) (n + 2) names

theorem no_break_spaces (n : Nat) : '\n' ∉ spaces n := fun h =>
  absurd (List.eq_of_mem_replicate h) (by decide)

theorem no_break_simpleKey {key : String} (h : isSimpleKey key.toList = true) (n : Nat) :
    '\n' ∉ spaces n ++ simpleKey n key := by
  have hall := all_scalar (P := isPrintable) (fun _ hc => hc) (.inr (staysInLine_simpleKey h n)) n
  have hbreak : '\n' ∉ scalar ⟨n, false⟩ n key.toList := fun h =>
    absurd (List.all_eq_true.1 hall _ h) (by decide)
  simp [simpleKey, no_break_spaces n, hbreak]

variable {names : List String} (hn : ∀ m ∈ names, IsName m.toList)
include hn

theorem items_texts (n : Nat) : items n (names.map .text) = names.map nameItem := by
  induction names with
  | nil => rfl
  | cons m names ih =>
    obtain ⟨hm, hn⟩ := List.forall_mem_cons.1 hn
    have hmarked : marked n (.text m) = nameScalar m.toList := scalar_name hm _ _
    rw [List.map_cons, items, hmarked, ih hn]
    rfl

theorem lines_items {lead : List Char} (hlead : '\n' ∉ lead) (n : Nat) (hne : names ≠ []) :
    splitOn '\n' (lead ++ rows n (items n (names.map .text))) = nameLines lead n names := by
  have hitem : ∀ l : List Char, '\n' ∉ l → ∀ m ∈ names,
      splitOn '\n' (l ++ nameItem m) = [l ++ nameItem m] := by
    intro l hl m hm
    refine splitOn_of_not_mem ?_
    simp [nameItem, hl, no_break_nameScalar (hn m hm)]
  rw [items_texts hn]
  cases names with
  | nil => exact absurd rfl hne
  | cons m names =>
    rw [List.map_cons, lines_rows, hitem lead hlead m List.mem_cons_self, List.flatMap_map,
      List.flatMap_congr fun k hk =>
        hitem (spaces n) (no_break_spaces n) k (List.mem_cons_of_mem m hk),
      ← List.map_eq_flatMap]
    rfl

theorem lines_marked {lead : List Char} (hlead : '\n' ∉ lead) (n : Nat) :
    splitOn '\n' (lead ++ marked n (.texts names)) = nameLines lead (n + 2) names := by
  have hitems := lines_items hn hlead (n + 2)
  cases names with
  | nil => exact splitOn_of_not_mem (by simp [hlead, marked, Document.texts])
  | cons m names => exact hitems (List.cons_ne_nil m names)

theorem lines_field (n : Nat) (key : String) :
    splitOn '\n' (spaces n ++ field n key (.texts names)) = listLines n key names := by
  rw [field, listLines]
  split
  · next hsimple =>
    have hkey := no_break_simpleKey hsimple n
    rw [← List.append_assoc]
    have hitems := lines_items hn (no_break_spaces n) n
    cases names with
    | nil => exact splitOn_of_not_mem (by simpa [behindKey, Document.texts] using hkey)
    | cons m names =>
      have hbehind (col : Nat) : behindKey n col (.texts (m :: names)) =
          '\n' :: (spaces n ++ rows n (items n ((m :: names).map .text))) := rfl
      rw [hbehind, splitOn_append, splitOn_of_not_mem hkey, hitems (List.cons_ne_nil m names)]
      rfl
  · have hlead : '\n' ∉ spaces n ++ [':', ' '] := by simp [no_break_spaces]
    have hfield : spaces n ++ ('?' :: ' ' :: text n (n + 2) key ++ newLines 0 n ++
          ':' :: ' ' :: marked n (.texts names)) =
        (spaces n ++ '?' :: ' ' :: text n (n + 2) key) ++
          '\n' :: ((spaces n ++ [':', ' ']) ++ marked n (.texts names)) := by
      simp [newLines]
    rw [hfield, splitOn_append, lines_marked hn hlead]

end Lists

end EnvKeeper.Yaml
