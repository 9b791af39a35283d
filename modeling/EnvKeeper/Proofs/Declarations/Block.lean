import EnvKeeper.Proofs.Additions
import EnvKeeper.Proofs.Declarations.Bindings
import EnvKeeper.Proofs.Table
import EnvKeeper.Proofs.Text.LineEnds

/-! What a block of additions declares: each of its names, with an empty value, and behind any text
nothing else changes. -/

namespace EnvKeeper

namespace Declarations

theorem not_mem_assigned {n : List Char} (hn : IsName n) {c : Char}
    (h : isNameChar c = false ∧ c ≠ '=') : c ∉ n ++ ['='] := by
  intro hc
  rcases List.mem_append.1 hc with hc | hc
  · exact hn.not_mem h.1 hc
  · exact h.2 (List.mem_singleton.1 hc)

theorem isKeyChar_of_isNameChar : ∀ c, isNameChar c = true → isKeyChar c = true :=
  forall_isNameChar (by decide)

namespace Cursor

variable {n : List Char} (hn : IsName n)
include hn

theorem isBlank_head? {s : List Char} : ∀ c, (n ++ s).head? = some c → isBlank c = false := by
  intro c hc
  obtain ⟨d, n', rfl⟩ := List.exists_cons_of_ne_nil hn.1
  obtain rfl : d = c := Option.some.inj hc
  exact isBlank_eq_false_of_isNameChar d (hn.2 d List.mem_cons_self)

/-- A name is a key even if it starts with the word `export`. -/
theorem skipExport_name (s : List Char) (line : Nat) :
    skipExport ⟨n ++ '=' :: s, line⟩ = ⟨n ++ '=' :: s, line⟩ := by
  unfold skipExport
  split
  · next t ht =>
    have hstart : n ++ '=' :: s = "export".toList ++ t := afterStart?_eq_some.1 ht
    have hhead : t.head?.any isInline = false := by
      rcases List.append_eq_append_iff.1 hstart with ⟨a, ha, hs⟩ | ⟨r, hr, rfl⟩
      · cases a with
        | nil => rw [← List.nil_append t, ← hs]; rfl
        | cons c a =>
          have hc : '=' ∈ "export".toList := by rw [ha, (List.cons.inj hs).1]; simp
          exact absurd hc (by decide)
      · cases r with
        | nil => rfl
        | cons c r =>
          have hc : isNameChar c = true := hn.2 c (by rw [hr]; simp)
          simp [isInline, isBlank_eq_false_of_isNameChar c hc]
    simp [hhead]
  · rfl

theorem key_name (s : List Char) (line : Nat) :
    ∃ l, key ⟨n ++ '=' :: s, line⟩ = .ok (some n, ⟨'=' :: s, l⟩) := by
  obtain ⟨ht, hd⟩ := span_append (p := isKeyChar) (l := n) (r := '=' :: s)
    (fun c hc => isKeyChar_of_isNameChar c (hn.2 c hc)) (fun a ha => by cases ha; rfl)
  have hhead (c : Char) (hc : isNameChar c = false) (r : List Char) : n ++ '=' :: s ≠ c :: r := by
    intro he
    obtain ⟨d, n', rfl⟩ := List.exists_cons_of_ne_nil hn.1
    rw [← (List.cons.inj he).1, hn.2 d List.mem_cons_self] at hc
    cases hc
  refine ⟨line + lineEnds n, ?_⟩
  unfold key
  split
  · next r hr => exact absurd hr (hhead _ (by decide) r)
  · next r hr => exact absurd hr (hhead _ (by decide) r)
  · simp only [ht, hd]
    rw [if_neg (mt List.isEmpty_iff.1 hn.1)]
    rfl

theorem bound_name (line : Nat) : bound ⟨n ++ ['='], line⟩ = [(String.ofList n, "")] := by
  obtain ⟨l, hk⟩ := key_name hn [] line
  have hw : skipWhile isBlank ⟨n ++ ['='], line⟩ = ⟨n ++ ['='], line⟩ := by
    obtain ⟨c, s, hs⟩ := List.exists_cons_of_ne_nil hn.1
    have hc := isBlank_head? hn (s := ['=']) c (by rw [hs]; rfl)
    simp [skipWhile, past, hs, hc, lineEnds]
  have hstep : statement ⟨n ++ ['='], line⟩ = .ok (⟨some n, some []⟩, ⟨[], l⟩) := by
    unfold statement
    rw [skipExport_name hn, hk]
    rfl
  have hnext : next? ⟨n ++ ['='], line⟩ = some (.bound ⟨some n, some []⟩, ⟨[], l⟩) := by
    unfold next?
    rw [hw, hstep, if_neg (by simp)]
  rw [bound_of_some hnext, bound_of_none (next?_of_blank rfl)]
  rfl

end Cursor

theorem bindings_nil : bindings [] = [] := Cursor.bound_of_none (Cursor.next?_of_blank rfl)

theorem bindings_name {n : List Char} (hn : IsName n) :
    bindings (n ++ ['=']) = [(String.ofList n, "")] := by
  have hb : (n ++ ['=']).head? ≠ some '\uFEFF' := fun h =>
    not_mem_assigned hn (by decide) (List.mem_of_mem_head? h)
  rw [bindings_eq, withoutMark, if_neg hb, Cursor.bound_name hn]

section

variable {names : List String} (hn : ∀ n ∈ names, IsName n.toList)
include hn

theorem hasNoQuote_lines : HasNoQuote (Additions.lines names) :=
  ⟨Additions.not_mem_lines hn (by decide), Additions.not_mem_lines hn (by decide)⟩

theorem lines_head?_ne : (Additions.lines names).head? ≠ some '\uFEFF' := fun h =>
  Additions.not_mem_lines hn (by decide) (List.mem_of_mem_head? h)

theorem bindings_lines : bindings (Additions.lines names) = names.map fun n => (n, "") := by
  induction names with
  | nil => exact bindings_nil
  | cons n names ih =>
    obtain ⟨h, hn⟩ := List.forall_mem_cons.1 hn
    have hq : HasNoQuote (n.toList ++ ['=']) :=
      ⟨not_mem_assigned h (by decide), not_mem_assigned h (by decide)⟩
    rw [Additions.lines_cons, bindings_append_line _ _ (.inl hq) (lines_head?_ne hn), ih hn,
      bindings_name h, String.ofList_toList]
    rfl

/-- The lines of a block bind the same behind any text, and the text binds what it did. -/
theorem bindings_unifyLineEnds {t x : List Char}
    (hx : x = Additions.lines names ∨ x = '\n' :: Additions.lines names) :
    bindings (unifyLineEnds (t ++ '\n' :: x)) =
      bindings (unifyLineEnds t) ++ names.map fun n => (n, "") := by
  have hq := hasNoQuote_lines hn
  have hb := lines_head?_ne hn
  have hr : '\r' ∉ Additions.lines names := Additions.not_mem_lines hn (by decide)
  have hself : unifyLineEnds x = x := by
    apply unifyLineEnds_eq_self
    rcases hx with rfl | rfl
    · exact hr
    · simpa using hr
  have hbound : bindings x = names.map fun n => (n, "") := by
    rcases hx with rfl | rfl
    · exact bindings_lines hn
    · have hcut := bindings_append_line [] _ (.inr hq) hb
      rwa [List.nil_append, bindings_nil, List.nil_append, bindings_lines hn] at hcut
  have hcut := unifyLineEnds_cut (f := bindings)
    (p := fun t => HasNoQuote t ∧ t.head? ≠ some '\uFEFF') bindings_nil ⟨⟨nofun, nofun⟩, nofun⟩
    (fun s t ht => bindings_append_line s t (.inr ht.1) ht.2) t (x := x)
  rw [hcut, hself, hbound]
  rw [hself]
  rcases hx with rfl | rfl
  · exact ⟨hq, hb⟩
  · exact ⟨⟨by simpa using hq.1, by simpa using hq.2⟩, by simp⟩

theorem bindings_block (t : List Char) (tail : List UInt8) :
    bindings (unifyLineEnds (t ++ Additions.block tail names)) =
      bindings (unifyLineEnds t) ++ names.map fun n => (n, "") := by
  by_cases he : names = []
  · subst he
    simp [Additions.block]
  rcases Additions.block_eq tail he with hb | hb
  · rw [hb, bindings_unifyLineEnds hn (.inl rfl)]
  · rw [hb, bindings_unifyLineEnds hn (.inr rfl)]

end

/-- Names that are new and do not come twice become the last entries. -/
theorem entries_block {names : List String} (hn : ∀ n ∈ names, IsName n.toList) (t : List Char)
    (tail : List UInt8) (hd : names.Nodup)
    (hnew : ∀ n ∈ names, n ∉ (entries (unifyLineEnds t)).keys) :
    entries (unifyLineEnds (t ++ Additions.block tail names)) =
      entries (unifyLineEnds t) ++ names.map fun n => (n, "") := by
  have hkeys : ((entries (unifyLineEnds t)).keys ++
      Table.keys (names.map fun n => (n, ""))).Nodup := by
    have hold := Table.nodup_keys_foldl (bindings (unifyLineEnds t)) (t := []) .nil
    have hadd : Table.keys (names.map fun n => (n, "")) = names := by
      rw [Table.keys, List.map_map]
      exact List.map_id names
    rw [hadd]
    exact List.nodup_append.2 ⟨hold, hd, fun x hx n hm he => hnew n hm (he ▸ hx)⟩
  rw [entries_eq, bindings_block hn, List.foldl_append, ← entries_eq]
  exact Table.foldl_put_new hkeys

end Declarations
end EnvKeeper
