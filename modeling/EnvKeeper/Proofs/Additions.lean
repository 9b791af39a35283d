import EnvKeeper.Proofs.Text.Name
import EnvKeeper.Proofs.Text.Utf8
import EnvKeeper.Store

/-! The shape of a block of additions: it starts with a line feed and ends with one, and has nothing
but names, `=` and line feeds. -/

namespace EnvKeeper.Additions

variable {names : List String} (hn : ∀ n ∈ names, IsName n.toList)

theorem lines_cons (n : String) (names : List String) :
    lines (n :: names) = (n.toList ++ ['=']) ++ '\n' :: lines names := by
  simp [lines]

theorem block_nil (tail : List UInt8) : block tail [] = [] := rfl

theorem block_eq (tail : List UInt8) (h : names ≠ []) :
    block tail names = '\n' :: lines names ∨ block tail names = '\n' :: '\n' :: lines names := by
  unfold block
  rw [if_neg (mt List.isEmpty_iff.1 h)]
  split
  · exact .inl rfl
  · exact .inr rfl

theorem lines_eq_append (h : names ≠ []) : ∃ s, lines names = s ++ ['\n'] := by
  have hlast : lines names = lines (names.dropLast ++ [names.getLast h]) := by
    rw [List.dropLast_concat_getLast h]
  refine ⟨lines names.dropLast ++ (names.getLast h).toList ++ ['='], ?_⟩
  rw [hlast]
  simp [lines]

theorem block_eq_append (tail : List UInt8) (h : names ≠ []) :
    ∃ s, block tail names = s ++ ['\n'] := by
  obtain ⟨s, hs⟩ := lines_eq_append h
  rcases block_eq tail h with hb | hb
  · exact ⟨'\n' :: s, by rw [hb, hs]; rfl⟩
  · exact ⟨'\n' :: '\n' :: s, by rw [hb, hs]; rfl⟩

theorem equals_mem_lines (h : names ≠ []) : '=' ∈ lines names := by
  obtain ⟨n, hn⟩ := List.exists_mem_of_ne_nil _ h
  exact List.mem_flatMap.2 ⟨n, hn, by simp⟩

theorem equals_mem_encode_block (tail : List UInt8) (h : names ≠ []) :
    61 ∈ Utf8.encode (block tail names) := by
  have hmem : '=' ∈ block tail names := by
    rcases block_eq tail h with hb | hb <;> rw [hb] <;> simp [equals_mem_lines h]
  exact List.mem_flatMap.2 ⟨'=', hmem, by decide⟩

/-- Bytes that are no text are none with a block behind them. -/
theorem decode_block_error {b : List UInt8} {f : Utf8.Fault} (h : Utf8.decode b = .error f)
    (tail : List UInt8) (names : List String) :
    ∃ f', Utf8.decode (b ++ Utf8.encode (block tail names)) = .error f' := by
  by_cases hne : names = []
  · refine ⟨f, ?_⟩
    rw [hne, block_nil, Utf8.encode_nil, List.append_nil, h]
  · have hlf : (10 : UInt8) < 0x80 := by decide
    rcases block_eq tail hne with hb | hb
    · rw [hb]
      exact Utf8.decode_append_error h hlf
    · rw [hb]
      exact Utf8.decode_append_error h hlf

include hn

theorem mem_lines {c : Char} (h : c ∈ lines names) : isNameChar c = true ∨ c = '=' ∨ c = '\n' := by
  obtain ⟨n, hm, hc⟩ := List.mem_flatMap.1 h
  rcases List.mem_append.1 hc with hc | hc
  · exact .inl ((hn n hm).2 c hc)
  · exact .inr (by simpa using hc)

theorem not_mem_lines {c : Char} (h : isNameChar c = false ∧ c ≠ '=' ∧ c ≠ '\n') :
    c ∉ lines names := by
  intro hc
  rcases mem_lines hn hc with hc | hc | hc
  · rw [h.1] at hc
    cases hc
  · exact h.2.1 hc
  · exact h.2.2 hc

end EnvKeeper.Additions
