import EnvKeeper.Proofs.Additions
import EnvKeeper.Proofs.Store.Ending
import EnvKeeper.Proofs.Text.Lines

/-! The lines of a store that was added to: those it had, an empty one, and one for each name. -/

namespace EnvKeeper

namespace Additions

variable {names : List String}

theorem encode_block (tail : List UInt8) (hne : names ≠ []) :
    Utf8.encode (block tail names) = closing tail ++ 10 :: Utf8.encode (lines names) := by
  unfold block closing
  rw [if_neg (mt List.isEmpty_iff.1 hne)]
  split <;> rfl

theorem no_end_of_isNameChar :
    ∀ c, isNameChar c = true → 10 ∉ String.utf8EncodeChar c ∧ 13 ∉ String.utf8EncodeChar c :=
  forall_isNameChar (by decide)

theorem no_end_in_line {n : String} (hn : IsName n.toList) :
    10 ∉ Utf8.encode (n.toList ++ ['=']) ∧ 13 ∉ Utf8.encode (n.toList ++ ['=']) := by
  have hchar : ∀ c ∈ n.toList ++ ['='],
      10 ∉ String.utf8EncodeChar c ∧ 13 ∉ String.utf8EncodeChar c := by
    refine List.forall_mem_append.2 ⟨fun c hc => no_end_of_isNameChar c (hn.2 c hc), ?_⟩
    exact List.forall_mem_singleton.2 (by decide)
  constructor
  · intro h
    obtain ⟨c, hc, h⟩ := List.mem_flatMap.1 h
    exact (hchar c hc).1 h
  · intro h
    obtain ⟨c, hc, h⟩ := List.mem_flatMap.1 h
    exact (hchar c hc).2 h

theorem linesOf_lines (hn : ∀ n ∈ names, IsName n.toList) :
    linesOf (Utf8.encode (lines names)) =
      names.map fun n => Utf8.encode (n.toList ++ ['=']) := by
  induction names with
  | nil => rfl
  | cons n names ih =>
    obtain ⟨hn, hnames⟩ := List.forall_mem_cons.1 hn
    obtain ⟨h10, h13⟩ := no_end_in_line hn
    rw [lines_cons, Utf8.encode_append, Utf8.encode_cons]
    exact (linesOf_line h10 h13).trans (congrArg _ (ih hnames))

theorem linesOf_block (hn : ∀ n ∈ names, IsName n.toList) (hne : names ≠ []) (b : List UInt8) :
    linesOf (b ++ Utf8.encode (block b.getLast?.toList names)) =
      linesOf b ++ [] :: names.map fun n => Utf8.encode (n.toList ++ ['=']) := by
  rw [encode_block _ hne, linesOf_append, linesOf_end (.inl rfl) nofun, linesOf_lines hn]

theorem getLast?_block (tail : List UInt8) (hne : names ≠ []) :
    (Utf8.encode (block tail names)).getLast? = some 10 := by
  obtain ⟨s, hs⟩ := block_eq_append tail hne
  rw [hs, Utf8.encode_append]
  exact List.getLast?_concat

end Additions

namespace Store

/-- The bytes of a store that was written are those it had with the block behind them. -/
theorem Reconciled.bytes_of_written {s : Store} {d d' : Disk} {found : List String}
    {known : Option (List String)} {dryRun : Bool} {u : Update}
    (h : Reconciled s d found known dryRun (.ok u) d') (hu : u.written = true) :
    d'.bytes? s.path =
      some (s.bytes d ++ Utf8.encode (Additions.block (s.bytes d).getLast?.toList u.added)) := by
  obtain ⟨-, -, hwrite⟩ := h.written_eq hu
  obtain ⟨l, old, hplace, -, -, hresolve⟩ := Disk.update_ok hwrite
  rw [bytes_of_place hplace]
  rw [tail, bytes_of_place hplace] at hresolve
  exact Disk.bytes?_eq_some.2 ⟨l, hresolve⟩

/-- Whatever bytes a store holds and however its last line ends, all its lines stay as they are when names
are added; behind them come one empty line and a line for each name, and the last one is ended by LF.
This is what every update that is written leaves in the store. -/
theorem lines_reconciled {names : List String} (hn : ∀ n ∈ names, IsName n.toList)
    (hne : names ≠ []) (b : List UInt8) :
    ∃ b', b' = b ++ Utf8.encode (Additions.block b.getLast?.toList names) ∧
      linesOf b' = linesOf b ++ [] :: names.map (fun n => Utf8.encode (n.toList ++ ['='])) ∧
      b'.getLast? = some 10 ∧
      ∀ (s : Store) d found known dryRun u w, s.bytes d = b →
        (s.reconcile found known dryRun).on d = (.ok u, w) → u.written = true → u.added = names →
          w.disk.bytes? s.path = some b' := by
  refine ⟨_, rfl, Additions.linesOf_block hn hne b, ?_, ?_⟩
  · rw [List.getLast?_append, Additions.getLast?_block _ hne]
    rfl
  · rintro s d found known dryRun u w rfl hrun hu rfl
    have hrec := s.reconcile_reconciled found known dryRun { disk := d }
    rw [← Run.on_eq, hrun] at hrec
    exact hrec.bytes_of_written hu

/-- A file with all three line ends, of which the last one, a CR, takes the first LF to itself. -/
theorem lines_reconciled_mixed :
    ∃ w b', ((Store.mk ⟨.relative, ["f"]⟩).reconcile ["B"] none false).on
        ⟨[(["f"], .file [0x41, 13, 10, 0xFF, 10, 0x43, 13])], []⟩ =
          (.ok { added := ["B"], written := true }, w) ∧
      w.disk.bytes? ⟨.relative, ["f"]⟩ = some b' ∧
      linesOf b' = [[0x41], [0xFF], [0x43], [], [0x42, 0x3D]] ∧ b'.getLast? = some 10 := by
  have hrun : (((Store.mk ⟨.relative, ["f"]⟩).reconcile ["B"] none false).on
      ⟨[(["f"], .file [0x41, 13, 10, 0xFF, 10, 0x43, 13])], []⟩).1 =
        .ok { added := ["B"], written := true } := by decide
  have hn : ∀ n ∈ ["B"], IsName n.toList := List.forall_mem_singleton.2 (by decide)
  obtain ⟨b', -, hlines, hlast, hstore⟩ :=
    lines_reconciled hn (List.cons_ne_nil _ _) [0x41, 13, 10, 0xFF, 10, 0x43, 13]
  generalize hout : ((Store.mk ⟨.relative, ["f"]⟩).reconcile ["B"] none false).on
    ⟨[(["f"], .file [0x41, 13, 10, 0xFF, 10, 0x43, 13])], []⟩ = out at hrun
  obtain ⟨r, w⟩ := out
  cases hrun
  exact ⟨w, b', rfl, hstore _ _ _ _ _ _ w rfl hout rfl rfl, hlines.trans (by decide), hlast⟩

end Store
end EnvKeeper
