import EnvKeeper.Proofs.Glob.Beneath
import EnvKeeper.Proofs.Sync.Outcome

/-! What lies beneath excluded directories. Whatever that is, a scan tells the same and ends the same. -/

namespace EnvKeeper

variable {d e : Disk} {root : Path} {s : Selection}

theorem not_up_default : ∀ t ∈ Selection.defaultPatterns, ".." ∉ Path.splitText t := by decide

theorem scan_same (hcand : e.candidates root s = d.candidates root s)
    (hbytes : ∀ files, d.candidates root s = .ok files →
      ∀ q ∈ files, e.bytes? (root.append q) = d.bytes? (root.append q)) :
    ∃ r j, (scan root s).on d = (r, ⟨d, j⟩) ∧ (scan root s).on e = (r, ⟨e, j⟩) := by
  cases hfiles : d.candidates root s with
  | error x => exact ⟨_, _, out_scan_error hfiles [], out_scan_error (hcand.trans hfiles) []⟩
  | ok files =>
    have hscanned : files.map (Scanned.ofFile e root) = files.map (Scanned.ofFile d root) :=
      List.map_congr_left fun q hq => by
        rw [Scanned.ofFile, Scanned.ofFile, hbytes files hfiles q hq]
    rw [Run.on_eq, Run.on_eq]
    unfold scan
    rw [Run.out_bind_ok (Run.out_disk _), Run.out_bind_ok (Run.out_disk _)]
    simp only [hcand, hfiles, hscanned]
    exact ⟨_, _, rfl, rfl⟩

/-- Excluded directories do not influence a scan. On two disks without links that are the same but for
what lies beneath directories below the root that are excluded by name, it says the same and ends with
the same report or the same failure, if neither the root nor a pattern goes up. -/
theorem scan_blind_to_excluded (hd : d.IsProper) (he : e.IsProper) (hld : d.IsLinkFree)
    (hle : e.IsLinkFree) (hroot : root.GoesDown)
    (hs : ∀ t ∈ s.patterns, ".." ∉ Path.splitText t)
    (h : Disk.SameOutside (d.start root ++ root.names) s.excludedUsed d e) :
    ∃ r j, (scan root s).on d = (r, ⟨d, j⟩) ∧ (scan root s).on e = (r, ⟨e, j⟩) := by
  have hused := Pattern.forall_used not_up_default hs
  refine scan_same (Disk.candidates_same hroot hused hd he hld hle h) fun files hfiles q hq => ?_
  obtain ⟨l, hl, -, hmem⟩ :=
    Disk.candidates_of_valid root hd (Disk.isValid_of_candidates hfiles)
  rw [hfiles] at hl
  cases hl
  have hselected := (hmem q).1 hq
  exact Disk.bytes?_same hld h hselected.kept (hselected.goesDown hroot hused hd) List.prefix_rfl

/-- A project with the given entries in its `lib/node_modules`. -/
def projectWith (packages : Table Location Entry) : Disk where
  entries := [(["app"], .directory), (["app", "a.js"], .file (Utf8.encode "process.env.KEY".toList)),
      (["app", "lib"], .directory), (["app", "lib", "node_modules"], .directory)] ++
    packages.map fun (l, x) => (["app", "lib", "node_modules"] ++ l, x)
  here := []

theorem scan_blind_to_excluded_packages :
    let d := projectWith [(["b.js"], .file [0xFF])]
    let e := projectWith [(["src"], .directory),
      (["src", "c.js"], .file (Utf8.encode "process.env.OTHER".toList))]
    let r : Report := { root := "app", files := [("a.js", ["KEY"])], scanned := 1 }
    d.IsProper ∧ e.IsProper ∧ d.IsLinkFree ∧ e.IsLinkFree ∧
    Disk.SameOutside ["app"] Selection.defaultExcluded d e ∧
    ∃ j, (scan ⟨.relative, ["app"]⟩ {}).on d = (.ok r, ⟨d, j⟩) ∧
      (scan ⟨.relative, ["app"]⟩ {}).on e = (.ok r, ⟨e, j⟩) := by
  -- a file there that is no text gives no error, and one that names variables adds none
  intro d e r
  have hd : d.IsProper := Disk.isProper_of_keys (by decide) (by decide)
  have he : e.IsProper := Disk.isProper_of_keys (by decide) (by decide)
  have hld : d.IsLinkFree := Disk.isLinkFree_of_keys (by decide)
  have hle : e.IsLinkFree := Disk.isLinkFree_of_keys (by decide)
  have hsame : Disk.SameOutside ["app"] Selection.defaultExcluded d e :=
    Disk.sameOutside_of_keys rfl (by decide)
  have hroot : (Path.mk .relative ["app"]).GoesDown := by
    unfold Path.GoesDown
    decide
  have hreport : ((scan ⟨.relative, ["app"]⟩ {}).on d).1 = .ok r := by decide +kernel
  obtain ⟨r', j, hscan, hscan'⟩ :=
    scan_blind_to_excluded (s := {}) hd he hld hle hroot (by decide) hsame
  rw [hscan] at hreport
  cases hreport
  exact ⟨hd, he, hld, hle, hsame, j, hscan, hscan'⟩

end EnvKeeper
