import EnvKeeper.Proofs.Ascending
import EnvKeeper.Proofs.Declarations.Block
import EnvKeeper.Proofs.Disk.Rewrite
import EnvKeeper.Proofs.Store.Outcome
import EnvKeeper.Proofs.Text.Utf8

/-! Adding to a store that holds a text. What the store declared stays as it was, and behind it come
the names that it lacked. -/

namespace EnvKeeper.Store

variable {s : Store} {d : Disk}

theorem bytes_eq {b : List UInt8} (h : d.bytes? s.path = some b) : s.bytes d = b := by
  rw [bytes, h]
  rfl

theorem text_of_encode {t : List Char} (h : d.bytes? s.path = some (Utf8.encode t)) :
    s.text d = .ok (unifyLineEnds t) := by
  rw [text, bytes_eq h, Utf8.decode_eq_ok.2 rfl]
  rfl

theorem entries_of_encode {t : List Char} (h : d.bytes? s.path = some (Utf8.encode t)) :
    s.entries d = Declarations.entries (unifyLineEnds t) := by
  rw [entries, text_of_encode h]

theorem entries_of_error {b : List UInt8} {f : Utf8.Fault} (h : d.bytes? s.path = some b)
    (hb : Utf8.decode b = .error f) : s.entries d = [] := by
  rw [entries, text, bytes_eq h, hb]
  rfl

/-- The names that were added to a text are declared from then on. -/
theorem entries_append {t : List Char} {names : List String} {d' : Disk} (tail : List UInt8)
    (hbefore : d.bytes? s.path = some (Utf8.encode t))
    (hafter : d'.bytes? s.path = some (Utf8.encode t ++ Utf8.encode (Additions.block tail names)))
    (hn : ∀ n ∈ names, IsName n.toList) (hd : names.Nodup)
    (hnew : ∀ n ∈ names, n ∉ (s.entries d).keys) :
    s.entries d' = s.entries d ++ names.map fun n => (n, "") := by
  rw [entries_of_encode hbefore] at hnew ⊢
  rw [← Utf8.encode_append] at hafter
  rw [entries_of_encode hafter, Declarations.entries_block hn t tail hd hnew]

theorem bytes?_reconciled {b : List UInt8} (hb : d.bytes? s.path = some b) {found : List String}
    {known : Option (List String)} {u : Update} {d' : Disk}
    (h : Reconciled s d found known false (.ok u) d') (he : u.error = none) :
    u.added = EnvKeeper.missing found (s.declared d known) ∧
      d'.bytes? s.path = some (b ++ Utf8.encode (Additions.block (s.tail d) u.added)) := by
  cases h with
  | nothing h =>
    refine ⟨h.symm, ?_⟩
    rw [hb, Additions.block_nil, Utf8.encode_nil, List.append_nil]
  | dry _ _ hdry => cases hdry
  | failed => cases he
  | written h _ _ hwrite =>
    obtain ⟨l, hl⟩ := Disk.bytes?_eq_some.1 hb
    exact ⟨h.symm, Disk.bytes?_eq_some.2 ⟨l, (Disk.append_file hl hwrite).2⟩⟩

/-- The names that a store lacks are added to what it declares: in order, with empty values, and
behind all that was there, however malformed its text is. -/
theorem reconcile_adds {t : List Char} {found : List String} {u : Update} {w : Desk}
    (hfile : d.bytes? s.path = some (Utf8.encode t)) (hnames : ∀ n ∈ found, IsName n.toList)
    (h : (s.reconcile found none false).on d = (.ok u, w)) (herror : u.error = none) :
    ∃ before, (s.load.on d).1 = .ok before ∧
      u.added.Pairwise (· < ·) ∧ (∀ n, n ∈ u.added ↔ n ∈ found ∧ n ∉ before.keys) ∧
      (s.load.on w.disk).1 = .ok (before ++ u.added.map fun n => (n, "")) := by
  have hrec := s.reconcile_reconciled found none false { disk := d }
  rw [← Run.on_eq, h] at hrec
  obtain ⟨hadded, hbytes⟩ := bytes?_reconciled hfile hrec herror
  have hadded : u.added = EnvKeeper.missing found (s.entries d).keys := hadded
  have hmem (n : String) : n ∈ u.added ↔ n ∈ found ∧ n ∉ (s.entries d).keys := by
    rw [hadded, mem_missing]
  have hnew : ∀ n ∈ u.added, IsName n.toList := fun n hn => hnames n ((hmem n).1 hn).1
  have hafter := entries_append _ hfile hbytes hnew (hadded ▸ nodup_missing _ _)
    fun n hn => ((hmem n).1 hn).2
  refine ⟨s.entries d, rfl, ?_, hmem, congrArg Except.ok hafter⟩
  rw [hadded]
  exact pairwise_missing _ _

theorem reconcile_adds_unclosed :
    ∃ w, ((Store.mk ⟨.relative, ["f"]⟩).reconcile ["C", "B"] none false).on
        ⟨[(["f"], .file (Utf8.encode "A='1\rB".toList))], []⟩ =
          (.ok { added := ["C"], written := true }, w) ∧
      ((Store.mk ⟨.relative, ["f"]⟩).load.on w.disk).1 = .ok [("B", ""), ("C", "")] := by
  -- an unclosed quote and a CR at the end of the line do not reach the name that is added
  have hrun : ((Store.mk ⟨.relative, ["f"]⟩).reconcile ["C", "B"] none false).on
      ⟨[(["f"], .file (Utf8.encode "A='1\rB".toList))], []⟩ =
        (.ok { added := ["C"], written := true },
          ⟨⟨[(["f"], .file (Utf8.encode "A='1\rB\n\nC=\n".toList))], []⟩,
            [.notice (.malformed 1), .notice (.namesAdded 1 "f")]⟩) := by decide +kernel
  have hnames : ∀ n ∈ ["C", "B"], IsName n.toList := by
    intro n hn
    simp only [List.mem_cons, List.not_mem_nil, or_false] at hn
    rcases hn with rfl | rfl <;> decide
  obtain ⟨before, hbefore, -, -, hafter⟩ :=
    reconcile_adds (t := "A='1\rB".toList) (by decide) hnames hrun rfl
  have hload : ((Store.mk ⟨.relative, ["f"]⟩).load.on
      ⟨[(["f"], .file (Utf8.encode "A='1\rB".toList))], []⟩).1 = .ok [("B", "")] := by
    decide +kernel
  rw [Except.ok.inj (hbefore.symm.trans hload)] at hafter
  exact ⟨_, hrun, hafter⟩

end EnvKeeper.Store
