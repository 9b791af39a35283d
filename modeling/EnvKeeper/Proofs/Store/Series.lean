import EnvKeeper.Proofs.Store.Merge

/-! Additions to a store, one after the other, each time by what the store declares at that moment. No
name is added twice, and the order of the requests shows only in the order of the new entries. -/

namespace EnvKeeper

def Update.appended (u : Update) : List String := if u.written then u.added else []

structure Addition where
  found : List String
  dryRun : Bool
  deriving DecidableEq, Repr

namespace Addition

def wanted (l : List Addition) : List String := (l.filter (!·.dryRun)).flatMap Addition.found

theorem mem_wanted_cons {a : Addition} {l : List Addition} {n : String} :
    n ∈ wanted (a :: l) ↔ (a.dryRun = false ∧ n ∈ a.found) ∨ n ∈ wanted l := by
  cases h : a.dryRun <;> simp [wanted, h]

end Addition

theorem Table.get?_append {κ α : Type} [DecidableEq κ] (t u : Table κ α) (k : κ) :
    Table.get? (t ++ u) k = (t.get? k).or (u.get? k) := by
  induction t with
  | nil => rfl
  | cons p t ih =>
    rw [List.cons_append, Table.get?, Table.get?]
    split
    · rfl
    · exact ih

/-- The entries of names that were added to a store. -/
def asDeclared (names : List String) : Table String String := names.map fun n => (n, "")

theorem keys_asDeclared (names : List String) : (asDeclared names).keys = names := by
  rw [Table.keys, asDeclared, List.map_map]
  exact List.map_id names

theorem get?_asDeclared (names : List String) (k : String) :
    (asDeclared names).get? k = if k ∈ names then some "" else none := by
  induction names with
  | nil => rfl
  | cons n names ih =>
    rw [asDeclared, List.map_cons, Table.get?]
    by_cases h : n = k
    · simp [h]
    · rw [if_neg h]
      refine ih.trans ?_
      simp [Ne.symm h]

namespace Store

def reconcileAll (s : Store) (l : List Addition) : Run (List Update) :=
  l.mapM fun a => s.reconcile a.found none a.dryRun

variable {s : Store}

/-- One request: a store that is a text never refuses it and stays one. -/
theorem reconcile_on_text {w : Desk} {t : List Char} {found : List String} (dryRun : Bool)
    (hfile : w.disk.bytes? s.path = some (Utf8.encode t)) (hnames : ∀ n ∈ found, IsName n.toList) :
    ∃ u w', (s.reconcile found none dryRun).out w = (.ok u, w') ∧ u.error = none ∧
      u.appended = (if dryRun then [] else EnvKeeper.missing found (s.entries w.disk).keys) ∧
      w'.disk.bytes? s.path =
        some (Utf8.encode (t ++ Additions.block (s.tail w.disk) u.appended)) ∧
      s.entries w'.disk = s.entries w.disk ++ asDeclared u.appended := by
  obtain ⟨l, hl⟩ := Disk.bytes?_eq_some.1 hfile
  have hrec := s.reconcile_reconciled found none dryRun w
  generalize (s.reconcile found none dryRun).out w = out at hrec ⊢
  obtain ⟨r, w'⟩ := out
  generalize hd : w'.disk = d' at hrec
  cases hrec with
  | nothing h =>
    have h : EnvKeeper.missing found (s.entries w.disk).keys = [] := h
    refine ⟨_, w', rfl, rfl, ?_, ?_, ?_⟩
    · rw [h, ite_self]
      rfl
    · rw [hd, hfile]
      simp [Update.appended, Additions.block_nil]
    · rw [hd]
      simp [Update.appended, asDeclared]
  | dry h hne hdry =>
    refine ⟨_, w', rfl, rfl, ?_, ?_, ?_⟩
    · rw [if_pos hdry]
      rfl
    · rw [hd, hfile]
      simp [Update.appended, Additions.block_nil]
    · rw [hd]
      simp [Update.appended, asDeclared]
  | failed h _ _ _ hwrite =>
    rw [Disk.append_ok hl] at hwrite
    cases hwrite
  | nul h _ _ hwrite =>
    rw [Disk.append_ok hl] at hwrite
    cases hwrite
  | written h hne hdry hwrite =>
    subst h
    have hbytes := Disk.bytes?_eq_some.2 ⟨l, (Disk.append_file hl hwrite).2⟩
    have hnew (n : String) (hn : n ∈ EnvKeeper.missing found (s.entries w.disk).keys) :
        n ∈ found ∧ n ∉ (s.entries w.disk).keys := mem_missing.1 hn
    refine ⟨_, w', rfl, rfl, ?_, ?_, ?_⟩
    · rw [hdry]
      rfl
    · rw [hd, hbytes, Utf8.encode_append]
      rfl
    · rw [hd]
      exact entries_append _ hfile hbytes (fun n hn => hnames n (hnew n hn).1)
        (nodup_missing _ _) fun n hn => (hnew n hn).2

/-- A run of requests, by what each of them does. The text only grows by blocks, and each name that is
wanted and was not declared is in just one of them. -/
theorem reconcileAll_on_text {w : Desk} {t : List Char} (l : List Addition)
    (hfile : w.disk.bytes? s.path = some (Utf8.encode t))
    (hnames : ∀ a ∈ l, ∀ n ∈ a.found, IsName n.toList) :
    ∃ us w' tails, (s.reconcileAll l).out w = (.ok us, w') ∧ (∀ u ∈ us, u.error = none) ∧
      w'.disk.bytes? s.path = some (Utf8.encode
        (t ++ (List.zipWith Additions.block tails (us.map Update.appended)).flatten)) ∧
      tails.length = us.length ∧
      s.entries w'.disk = s.entries w.disk ++ asDeclared (us.flatMap Update.appended) ∧
      (us.flatMap Update.appended).Nodup ∧
      ∀ n, n ∈ us.flatMap Update.appended ↔
        n ∈ Addition.wanted l ∧ n ∉ (s.entries w.disk).keys := by
  induction l generalizing w t with
  | nil =>
    refine ⟨[], w, [], rfl, nofun, ?_, rfl, ?_, .nil, ?_⟩
    · simpa using hfile
    · simp [asDeclared]
    · simp [Addition.wanted]
  | cons a l ih =>
    obtain ⟨ha, hl⟩ := List.forall_mem_cons.1 hnames
    obtain ⟨u, w₁, hout, herror, happ, hbytes, hentries⟩ := reconcile_on_text a.dryRun hfile ha
    obtain ⟨us, w', tails, hrest, herrors, hbytes', hlen, hentries', hnodup, hmem⟩ := ih hbytes hl
    have hkeys : (s.entries w₁.disk).keys = (s.entries w.disk).keys ++ u.appended := by
      rw [hentries, Table.keys, List.map_append]
      exact congrArg _ (keys_asDeclared _)
    have hfirst (n : String) : n ∈ u.appended ↔
        (a.dryRun = false ∧ n ∈ a.found) ∧ n ∉ (s.entries w.disk).keys := by
      rw [happ]
      cases a.dryRun <;> simp [mem_missing]
    have hapart : ∀ n ∈ us.flatMap Update.appended, n ∉ u.appended := by
      intro n hn hu
      have hnew := ((hmem n).1 hn).2
      rw [hkeys] at hnew
      exact hnew (List.mem_append_right _ hu)
    refine ⟨u :: us, w', s.tail w.disk :: tails, ?_, ?_, ?_, ?_, ?_, ?_, fun n => ?_⟩
    · rw [reconcileAll, List.mapM_cons, Run.out_bind_ok hout]
      exact Run.out_bind_ok hrest _
    · exact List.forall_mem_cons.2 ⟨herror, herrors⟩
    · rw [hbytes', List.append_assoc]
      rfl
    · rw [List.length_cons, List.length_cons, hlen]
    · rw [hentries', hentries, List.append_assoc, List.flatMap_cons, asDeclared, asDeclared,
        asDeclared, List.map_append]
    · have hown : u.appended.Nodup := by
        rw [happ]
        split
        · exact .nil
        · exact nodup_missing _ _
      exact List.nodup_append.2 ⟨hown, hnodup, fun x hx y hy he => hapart y hy (he ▸ hx)⟩
    · rw [List.flatMap_cons, List.mem_append, hmem, Addition.mem_wanted_cons, hkeys,
        List.mem_append, hfirst]
      grind

/-- Requests to a store that is a text all end well. Each name is added at most once and only if it
was not declared at the start; what is declared in the end is what was declared at the start and,
behind that, the names that were added, in order. The keys are the old ones and all that was wanted,
and requests that want the same names, in another order or divided in another way, end with the same
values. -/
theorem reconcileAll_adds {d : Disk} {t : List Char} (l : List Addition)
    (hfile : d.bytes? s.path = some (Utf8.encode t))
    (hnames : ∀ a ∈ l, ∀ n ∈ a.found, IsName n.toList) :
    ∃ us w before after tails,
      (s.reconcileAll l).on d = (.ok us, w) ∧ (∀ u ∈ us, u.error = none) ∧
      (s.load.on d).1 = .ok before ∧ (s.load.on w.disk).1 = .ok after ∧
      w.disk.bytes? s.path = some (Utf8.encode
        (t ++ (List.zipWith Additions.block tails (us.map Update.appended)).flatten)) ∧
      tails.length = us.length ∧
      (us.flatMap Update.appended).Nodup ∧
      (∀ n ∈ us.flatMap Update.appended, n ∉ before.keys) ∧
      after = before ++ asDeclared (us.flatMap Update.appended) ∧
      (∀ n, n ∈ after.keys ↔ n ∈ before.keys ∨ n ∈ Addition.wanted l) ∧
      ∀ l', (∀ a ∈ l', ∀ n ∈ a.found, IsName n.toList) →
        (∀ n, n ∈ Addition.wanted l' ↔ n ∈ Addition.wanted l) →
        ∃ us' w' after', (s.reconcileAll l').on d = (.ok us', w') ∧ (∀ u ∈ us', u.error = none) ∧
          (s.load.on w'.disk).1 = .ok after' ∧ ∀ k, after'.get? k = after.get? k := by
  obtain ⟨us, w, tails, hout, herrors, hbytes, hlen, hentries, hnodup, hmem⟩ :=
    reconcileAll_on_text (w := { disk := d }) l hfile hnames
  refine ⟨us, w, s.entries d, s.entries w.disk, tails, hout, herrors, rfl, rfl, hbytes, hlen, hnodup,
    fun n hn => ((hmem n).1 hn).2, hentries, fun n => ?_, fun l' hnames' hwanted => ?_⟩
  · rw [hentries, Table.keys, List.map_append]
    refine List.mem_append.trans ?_
    have hadded := keys_asDeclared (us.flatMap Update.appended)
    rw [Table.keys] at hadded
    rw [hadded, hmem]
    refine ⟨fun h => h.imp_right And.left, fun h => ?_⟩
    by_cases hold : n ∈ (s.entries d).keys
    · exact .inl hold
    · exact h.imp_right fun hn => ⟨hn, hold⟩
  · obtain ⟨us', w', -, hout', herrors', -, -, hentries', -, hmem'⟩ :=
      reconcileAll_on_text (w := { disk := d }) l' hfile hnames'
    have hsame (n : String) : n ∈ us'.flatMap Update.appended ↔ n ∈ us.flatMap Update.appended := by
      rw [hmem, hmem', hwanted]
    refine ⟨us', w', s.entries w'.disk, hout', herrors', rfl, fun k => ?_⟩
    rw [hentries', hentries, Table.get?_append, Table.get?_append, get?_asDeclared, get?_asDeclared]
    simp only [hsame]

def unclosedStore : Disk := ⟨[(["f"], .file (Utf8.encode "A='1\rB".toList))], []⟩

theorem reconcileAll_adds_reordered :
    ∃ us w w' after', ((Store.mk ⟨.relative, ["f"]⟩).reconcileAll
        [⟨["C", "B"], false⟩, ⟨["E"], true⟩, ⟨["D", "C"], false⟩]).on unclosedStore = (.ok us, w) ∧
      us.flatMap Update.appended = ["C", "D"] ∧
      ((Store.mk ⟨.relative, ["f"]⟩).load.on w.disk).1 = .ok [("B", ""), ("C", ""), ("D", "")] ∧
      ((Store.mk ⟨.relative, ["f"]⟩).reconcileAll
        [⟨["D"], false⟩, ⟨["B", "C"], false⟩]).on unclosedStore = (.ok [⟨["D"], true, none⟩,
          ⟨["C"], true, none⟩], w') ∧
      ((Store.mk ⟨.relative, ["f"]⟩).load.on w'.disk).1 = .ok after' ∧
      ∀ k, after'.get? k = Table.get? [("B", ""), ("C", ""), ("D", "")] k := by
  -- a dry request between two others, which are then made the other way round and divided anew
  have hnames : ∀ a ∈ [Addition.mk ["C", "B"] false, ⟨["E"], true⟩, ⟨["D", "C"], false⟩],
      ∀ n ∈ a.found, IsName n.toList := by decide
  have hnames' : ∀ a ∈ [Addition.mk ["D"] false, ⟨["B", "C"], false⟩],
      ∀ n ∈ a.found, IsName n.toList := by decide
  have hwanted (n : String) : n ∈ Addition.wanted [⟨["D"], false⟩, ⟨["B", "C"], false⟩] ↔
      n ∈ Addition.wanted [⟨["C", "B"], false⟩, ⟨["E"], true⟩, ⟨["D", "C"], false⟩] := by
    simp [Addition.wanted]
    grind
  have hrun : (((Store.mk ⟨.relative, ["f"]⟩).reconcileAll
      [⟨["C", "B"], false⟩, ⟨["E"], true⟩, ⟨["D", "C"], false⟩]).on unclosedStore).1 =
        .ok [⟨["C"], true, none⟩, ⟨["E"], false, none⟩, ⟨["D"], true, none⟩] := by decide +kernel
  have hrun' : (((Store.mk ⟨.relative, ["f"]⟩).reconcileAll
      [⟨["D"], false⟩, ⟨["B", "C"], false⟩]).on unclosedStore).1 =
        .ok [⟨["D"], true, none⟩, ⟨["C"], true, none⟩] := by decide +kernel
  have hbefore : ((Store.mk ⟨.relative, ["f"]⟩).load.on unclosedStore).1 = .ok [("B", "")] := by
    decide +kernel
  obtain ⟨us, w, before, after, -, hout, -, hload, hload', -, -, -, -, hafter, -, hany⟩ :=
    reconcileAll_adds (s := ⟨⟨.relative, ["f"]⟩⟩) (d := unclosedStore) (t := "A='1\rB".toList)
      [⟨["C", "B"], false⟩, ⟨["E"], true⟩, ⟨["D", "C"], false⟩] (by decide) hnames
  obtain ⟨us', w', after', hout', -, hload'', hsame⟩ := hany _ hnames' hwanted
  rw [hout] at hrun
  rw [hout'] at hrun'
  cases hrun
  cases hrun'
  cases hload.symm.trans hbefore
  subst hafter
  exact ⟨_, w, w', after', hout, rfl, hload', hout', hload'', hsame⟩

end Store
end EnvKeeper
