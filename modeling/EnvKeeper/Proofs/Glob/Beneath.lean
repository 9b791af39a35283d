import EnvKeeper.Proofs.Disk.Beneath
import EnvKeeper.Proofs.Glob.Filled
import EnvKeeper.Proofs.Glob.Flaw
import EnvKeeper.Proofs.Glob.Selected

/-! Two disks that differ only beneath directories that a selection excludes. Patterns are followed into
these as well, on each disk in its own way. But whatever is derived there has an excluded name on its
way and is dropped, and all that is kept is derived on both disks by the same steps. -/

namespace EnvKeeper.Disk

variable {d e : Disk} {root : Path} {s : Selection} {names parts q r x : List String} {slash : Bool}
  {n : String}

theorem Derives.isPrefix (h : d.Derives root slash parts q r) : q <+: r := by
  induction h with
  | done => exact List.prefix_rfl
  | step _ _ _ ih => exact (List.prefix_append _ _).trans ih

/-- Where a path has none of the names, each part of a pattern adds the same on both disks. -/
theorem Contributes.same (hlinks : d.IsLinkFree)
    (h : SameOutside (d.start root ++ root.names) names d e) (hr : ∀ n ∈ r.dropLast, n ∉ names)
    (hdown : (root.append r).GoesDown) (hq : q ++ x <+: r) (hc : d.Contributes root q n x) :
    e.Contributes root q n x := by
  have hres := resolve_same hlinks h hr hdown ((List.prefix_append q x).trans hq)
  cases hc with
  | name hw hthere => exact .name hw ((isThere_same hlinks h hr hdown hq).trans hthere)
  | wild hw hn hl hm hmatch =>
    refine .wild hw hn (hres.trans hl) ?_ hmatch
    rwa [at?_same hlinks h hr hdown hl hq]
  | anyDepth hl hnames =>
    refine .anyDepth (hres.trans hl) fun y hy hpre => ?_
    rw [at?_same hlinks h hr hdown hl (((List.prefix_append_right_inj q).2 hpre).trans hq)]
    exact hnames y hy hpre

theorem Derives.same (hlinks : d.IsLinkFree)
    (h : SameOutside (d.start root ++ root.names) names d e) (hr : ∀ n ∈ r.dropLast, n ∉ names)
    (hdown : (root.append r).GoesDown) (hd : d.Derives root slash parts q r) :
    e.Derives root slash parts q r := by
  induction hd with
  | done q => exact .done q
  | step hc hdir hrest ih =>
    -- each path on the way is a beginning of `r`, so it has none of the names either
    have hpre := hrest.isPrefix
    refine .step (hc.same hlinks h hr hdown hpre) (fun hp => ?_) (ih hr hdown)
    rw [isDirectory_same hlinks h hr hdown hpre]
    exact hdir hp

/-- From parts that do not go up nothing is derived that does. -/
theorem Derives.goesDown (hd : d.IsProper) {t : String}
    (h : d.Derives root slash (Path.ofText t).names [] r) (hroot : root.GoesDown)
    (ht : ".." ∉ Path.splitText t) : (root.append r).GoesDown := by
  refine List.forall_mem_append.2 ⟨hroot, h.forall_mem hd ?_ (fun n hn => ?_) nofun⟩
  · exact fun _ hm => ⟨⟨hm.ne_empty, hm.ne_dot⟩, hm.ne_up⟩
  · obtain ⟨hsplit, hn⟩ := Pattern.mem_names.1 hn
    exact ⟨hn, fun hup => ht (hup ▸ hsplit)⟩

variable (hroot : root.GoesDown) (hs : ∀ t ∈ s.patternsUsed, ".." ∉ Path.splitText t)
include hroot hs

theorem Selected.goesDown (hd : d.IsProper) (hq : d.Selected root s q) :
    (root.append q).GoesDown := by
  obtain ⟨t, ht, hderives⟩ := hq.derived
  exact hderives.goesDown hd hroot (hs t ht)

theorem Selected.same (hd : d.IsProper) (hlinks : d.IsLinkFree)
    (h : SameOutside (d.start root ++ root.names) s.excludedUsed d e) (hq : d.Selected root s q) :
    e.Selected root s q where
  derived := by
    obtain ⟨t, ht, hderives⟩ := hq.derived
    exact ⟨t, ht, hderives.same hlinks h hq.kept (hq.goesDown hroot hs hd)⟩
  file := by
    rw [isFile, bytes?_same hlinks h hq.kept (hq.goesDown hroot hs hd) List.prefix_rfl]
    exact hq.file
  kept := hq.kept

theorem candidates_same (hd : d.IsProper) (he : e.IsProper) (hld : d.IsLinkFree)
    (hle : e.IsLinkFree) (h : SameOutside (d.start root ++ root.names) s.excludedUsed d e) :
    e.candidates root s = d.candidates root s := by
  cases hfiles : d.candidates root s with
  | error x => exact candidates_error hfiles
  | ok files =>
    have hvalid := isValid_of_candidates hfiles
    obtain ⟨l, hl, hasc, hmem⟩ := candidates_of_valid root hd hvalid
    obtain ⟨l', hl', hasc', hmem'⟩ := candidates_of_valid root he hvalid
    have hback : SameOutside (e.start root ++ root.names) s.excludedUsed e d := by
      rw [start_eq h.here]
      exact h.symm
    rw [← hfiles, hl, hl']
    -- both lists ascend, so it is enough that they have the same members
    refine congrArg Except.ok (hasc'.eq_of_mem_iff hasc fun q => ?_)
    rw [hmem, hmem']
    exact ⟨.same hroot hs he hle hback, .same hroot hs hd hld h⟩

end EnvKeeper.Disk
