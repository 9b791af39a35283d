import EnvKeeper.Proofs.Scan.Account
import EnvKeeper.Proofs.Store.Outcome
import EnvKeeper.Proofs.Text.Fault

/-! Files that are no text. A scan reports one error for each of them and a store of that kind is read as
empty with one warning; both say where the bytes stop being a text, and why. -/

namespace EnvKeeper

namespace Store

variable {s : Store} {d : Disk} {b : List UInt8}

theorem load_on (h : d.bytes? s.path = some b) :
    s.load.on d = match Utf8.decode b with
      | .ok t => (.ok (Declarations.entries (unifyLineEnds t)),
          ⟨d, (Declarations.malformed (unifyLineEnds t)).map fun n => .notice (.malformed n)⟩)
      | .error f => (.ok [], ⟨d, [.notice (.storeUnreadable s.name f.message)]⟩) := by
  rw [Run.on_eq, out_load]
  simp only [entries, notices, text, bytes, h, Option.getD_some, List.nil_append]
  cases Utf8.decode b with
  | ok t => simp only [Except.map, List.map_map, Function.comp_def]
  | error f => rfl

end Store

/-- Bytes are read as a text just if they are its encoding, and are refused with their one fault if they
encode none. A scan has one error for each candidate that is refused, in their order, and a store that
is refused declares nothing and gives one warning. Both tell the fault. -/
theorem undecodable_located {d : Disk} {root : Path} {sel : Selection} {files : List (List String)}
    (hfiles : d.candidates root sel = .ok files) :
    (∀ b t, Utf8.decode b = .ok t ↔ b = Utf8.encode t) ∧
    (∀ b f, Utf8.decode b = .error f ↔ f.Locates b) ∧
    (∃ r w, (scan root sel).on d = (.ok r, w) ∧
      (∀ q ∈ files, ∃ b, d.bytes? (root.append q) = some b ∧
        ∀ t, d.text? (root.append q) = some t ↔ b = Utf8.encode t) ∧
      r.scanned = files.countP (fun q => (d.text? (root.append q)).isSome) ∧
      List.Forall₂ (fun q e => ∃ (b : List UInt8) (f : Utf8.Fault), d.bytes? (root.append q) = some b ∧
          f.Locates b ∧ e = "Could not read " ++ "/".intercalate q ++ ": " ++ f.message)
        (files.filter fun q => !(d.text? (root.append q)).isSome) r.errors) ∧
    ∀ (s : Store) b, d.bytes? s.path = some b →
      (∃ t, b = Utf8.encode t ∧ s.load.on d = (.ok (Declarations.entries (unifyLineEnds t)),
        ⟨d, (Declarations.malformed (unifyLineEnds t)).map fun n => .notice (.malformed n)⟩)) ∨
      ∃ f : Utf8.Fault, f.Locates b ∧
        s.load.on d = (.ok [], ⟨d, [.notice (.storeUnreadable s.name f.message)]⟩) := by
  have hfile := Disk.isFile_of_candidates hfiles
  refine ⟨fun b t => Utf8.decode_eq_ok, fun b f => Utf8.decode_eq_error, ?_, fun s b hb => ?_⟩
  · obtain ⟨j, hscan⟩ := out_scan_ok hfiles []
    refine ⟨_, _, hscan, fun q hq => ?_, by rw [reportOf_eq hfile], ?_⟩
    · obtain ⟨b, hb⟩ := Option.isSome_iff_exists.1 (hfile q hq)
      exact ⟨b, hb, fun t => by rw [Disk.text?_eq_some, hb, Option.some_inj]⟩
    · rw [reportOf_eq hfile]
      refine (filterMap_error? hfile).imp fun q e ⟨b, f, hb, _, hf, he⟩ => ?_
      exact ⟨b, f, hb, Utf8.decode_eq_error.1 hf, he⟩
  · rw [Store.load_on hb]
    cases hdec : Utf8.decode b with
    | ok t => exact .inl ⟨t, Utf8.decode_eq_ok.1 hdec, rfl⟩
    | error f => exact .inr ⟨f, Utf8.decode_eq_error.1 hdec, rfl⟩

def brokenTree : Disk where
  -- a character that is cut short, a surrogate, and a store that starts with an overlong form
  entries := [(["a.js"], .file [0x41, 0xE2, 0x82]), (["b.js"], .file [0xED, 0xA0, 0x80]),
    ([".env"], .file [0xC0, 0x80])]
  here := []

theorem undecodable_located_broken :
    (∃ w, (scan ⟨.relative, []⟩ { patterns := ["*.js"] }).on brokenTree = (.ok { errors :=
        ["Could not read a.js: 'utf-8' codec can't decode bytes in position 1-2: " ++
            "unexpected end of data",
          "Could not read b.js: 'utf-8' codec can't decode byte 0xed in position 0: " ++
            "invalid continuation byte"] }, w)) ∧
    Utf8.Fault.Locates ⟨1, 2, 0xE2, .cutShort⟩ [0x41, 0xE2, 0x82] ∧
    Utf8.Fault.Locates ⟨0, 1, 0xED, .badContinuation⟩ [0xED, 0xA0, 0x80] ∧
    ∃ f : Utf8.Fault, f.Locates [0xC0, 0x80] ∧ (Store.mk ⟨.relative, [".env"]⟩).load.on brokenTree =
      (.ok [], ⟨brokenTree, [.notice (.storeUnreadable ".env" f.message)]⟩) := by
  have hfiles : brokenTree.candidates ⟨.relative, []⟩ { patterns := ["*.js"] } =
      .ok [["a.js"], ["b.js"]] := by decide +kernel
  obtain ⟨-, herror, ⟨r, w, hscan, -⟩, hstore⟩ := undecodable_located hfiles
  have hreport : ((scan ⟨.relative, []⟩ { patterns := ["*.js"] }).on brokenTree).1 =
      .ok { errors :=
        ["Could not read a.js: 'utf-8' codec can't decode bytes in position 1-2: " ++
            "unexpected end of data",
          "Could not read b.js: 'utf-8' codec can't decode byte 0xed in position 0: " ++
            "invalid continuation byte"] } := by decide +kernel
  rw [hscan] at hreport
  cases hreport
  have hoverlong : Utf8.Fault.Locates ⟨0, 1, 0xC0, .badStart⟩ [0xC0, 0x80] :=
    (herror _ _).1 (by decide)
  refine ⟨⟨w, hscan⟩, (herror _ _).1 (by decide), (herror _ _).1 (by decide), ?_⟩
  rcases hstore ⟨⟨.relative, [".env"]⟩⟩ [0xC0, 0x80] (by decide) with ⟨t, ht, -⟩ | h
  · exact absurd ⟨t, ht⟩ hoverlong.not_isText
  · exact h

end EnvKeeper
