import EnvKeeper.Proofs.Glob.Flaw
import EnvKeeper.Proofs.Glob.Selected
import EnvKeeper.Proofs.Glob.Sets

/-! Which names a wildcard matches: those that can be cut into pieces, one for each token, with any
piece for a star. Reading a part and trying all ends of a name finds such a cut if there is one. -/

namespace EnvKeeper

namespace Token

variable {t : Token} {ts : List Token} {i s rest : List Char} {c : Char}

theorem read_nil : read [] = [] := by rw [read]

theorem read_star : read ('*' :: s) = .star :: read s := by rw [read, if_pos rfl]

theorem read_any : read ('?' :: s) = .any :: read s := by
  rw [read, if_neg (by decide), if_pos rfl]

theorem read_set (h : closeSet? s = some (i, rest)) : read ('[' :: s) = ofSet i :: read rest := by
  rw [read, if_neg (by decide), if_neg (by decide), if_pos rfl]
  split
  · next h' =>
    rw [h] at h'
    cases h'
    rfl
  · next h' =>
    rw [h] at h'
    cases h'

theorem read_char (hstar : c ≠ '*') (hany : c ≠ '?') (h : c = '[' → closeSet? s = none) :
    read (c :: s) = .char c :: read s := by
  rw [read, if_neg hstar, if_neg hany]
  split
  · next hc =>
    split
    · next h' =>
      rw [h hc] at h'
      cases h'
    · rfl
  · rfl

theorem ofSet_ne_star : ofSet s ≠ .star := by
  unfold ofSet
  split
  · nofun
  · simp only
    split <;> nofun

theorem accept_star_iff :
    accept (.star :: ts) s = true ↔ ∃ piece rest, s = piece ++ rest ∧ accept ts rest = true := by
  induction s with
  | nil =>
    have hnil : accept (.star :: ts) [] = accept ts [] := by rw [accept_star]; simp
    rw [hnil]
    constructor
    · exact fun h => ⟨[], [], rfl, h⟩
    · rintro ⟨piece, rest, hcut, h⟩
      obtain ⟨-, rfl⟩ := List.append_eq_nil_iff.1 hcut.symm
      exact h
  | cons c s ih =>
    have hcons : accept (.star :: ts) (c :: s) = (accept ts (c :: s) || accept (.star :: ts) s) := by
      rw [accept_star]; rfl
    rw [hcons, Bool.or_eq_true, ih]
    constructor
    · rintro (h | ⟨piece, rest, rfl, h⟩)
      · exact ⟨[], c :: s, rfl, h⟩
      · exact ⟨c :: piece, rest, rfl, h⟩
    · rintro ⟨piece, rest, hcut, h⟩
      cases piece with
      | nil => exact .inl (hcut ▸ h)
      | cons d piece => exact .inr ⟨piece, rest, (List.cons.inj hcut).2, h⟩

theorem accept_cons_iff (ht : t ≠ .star) : accept (t :: ts) s = true ↔
    ∃ c rest, s = c :: rest ∧ t.has c = true ∧ accept ts rest = true := by
  cases s with
  | nil => simp [accept_cons_nil ht]
  | cons c s => simp [accept_cons ht]

theorem accept_char_iff : accept (.char c :: ts) s = true ↔
    ∃ rest, s = c :: rest ∧ accept ts rest = true := by
  rw [accept_cons_iff (t := .char c) nofun]
  simp [Token.has]

end Token

namespace Wildcard

open Token

variable {takes takes' : Bool → List Char → Char → Prop} {c : Char} {s part name rest : List Char}

/-- The character `c`, with `s` behind it, stands for itself. -/
structure IsPlain (c : Char) (s : List Char) : Prop where
  not_star : c ≠ '*'
  not_any : c ≠ '?'
  not_set : c = '[' → ∀ negated seq rest, ¬ Closed s negated seq rest

/-- The name can be cut into pieces, one for each token of the part; sets take what `takes` says. -/
inductive Matches (takes : Bool → List Char → Char → Prop) : List Char → List Char → Prop where
  | done : Matches takes [] []
  | star {part name : List Char} (piece : List Char) (h : Matches takes part name) :
    Matches takes ('*' :: part) (piece ++ name)
  | any {part name : List Char} (c : Char) (h : Matches takes part name) :
    Matches takes ('?' :: part) (c :: name)
  | set {s seq rest name : List Char} {negated : Bool} {c : Char} (hs : Closed s negated seq rest)
    (hc : takes negated seq c) (h : Matches takes rest name) : Matches takes ('[' :: s) (c :: name)
  | char {c : Char} {part name : List Char} (hc : IsPlain c part) (h : Matches takes part name) :
    Matches takes (c :: part) (c :: name)

theorem matches_nil : Matches takes [] name ↔ name = [] := by
  constructor
  · intro h
    cases h
    rfl
  · rintro rfl
    exact .done

theorem matches_star : Matches takes ('*' :: part) name ↔
    ∃ piece rest, name = piece ++ rest ∧ Matches takes part rest := by
  constructor
  · intro h
    cases h with
    | star piece h => exact ⟨piece, _, rfl, h⟩
    | char hc => exact absurd rfl hc.not_star
  · rintro ⟨piece, rest, rfl, h⟩
    exact .star piece h

theorem matches_any : Matches takes ('?' :: part) name ↔
    ∃ c rest, name = c :: rest ∧ Matches takes part rest := by
  constructor
  · intro h
    cases h with
    | any c h => exact ⟨c, _, rfl, h⟩
    | char hc => exact absurd rfl hc.not_any
  · rintro ⟨c, rest, rfl, h⟩
    exact .any c h

theorem matches_set {i : List Char} (h : closeSet? s = some (i, rest)) :
    Matches Takes ('[' :: s) name ↔
      ∃ c r, name = c :: r ∧ (ofSet i).has c = true ∧ Matches Takes rest r := by
  constructor
  · intro hm
    cases hm with
    | set hs hc hm =>
      rw [hs.closeSet?] at h
      cases h
      exact ⟨_, _, rfl, (has_ofSet hs.bare).2 hc, hm⟩
    | char hc =>
      rw [closeSet?_eq_none.2 (hc.not_set rfl)] at h
      cases h
  · rintro ⟨c, r, rfl, hc, hm⟩
    obtain ⟨negated, seq, rfl, hs⟩ := closed_of_closeSet? h
    exact .set hs ((has_ofSet hs.bare).1 hc) hm

theorem matches_char (hc : IsPlain c part) : Matches takes (c :: part) name ↔
    ∃ rest, name = c :: rest ∧ Matches takes part rest := by
  constructor
  · intro h
    cases h with
    | star => exact absurd rfl hc.not_star
    | any => exact absurd rfl hc.not_any
    | set hs => exact absurd hs (hc.not_set rfl _ _ _)
    | char _ h => exact ⟨_, rfl, h⟩
  · rintro ⟨rest, rfl, h⟩
    exact .char hc h

/-- All ends of the name are tried, so a cut is found if there is one. -/
theorem accept_read_iff (part name : List Char) :
    accept (Token.read part) name = true ↔ Matches Takes part name := by
  induction part using Token.read.induct generalizing name with
  | case1 => rw [read_nil, accept_nil, List.isEmpty_iff, matches_nil]
  | case2 s ih =>
    rw [read_star, accept_star_iff, matches_star]
    simp only [ih]
  | case3 s _ ih =>
    rw [read_any, accept_cons_iff (t := .any) nofun, matches_any]
    simp only [ih, Token.has, true_and]
  | case4 s i rest h _ _ _ ih =>
    rw [read_set h, accept_cons_iff ofSet_ne_star, matches_set h]
    simp only [ih]
  | case5 s h _ _ ih =>
    have hc : IsPlain '[' s := ⟨by decide, by decide, fun _ => closeSet?_eq_none.1 h⟩
    rw [read_char hc.not_star hc.not_any fun _ => h, accept_char_iff, matches_char hc]
    simp only [ih]
  | case6 c s hstar hany hset ih =>
    have hc : IsPlain c s := ⟨hstar, hany, fun h => absurd h hset⟩
    rw [read_char hstar hany fun h => absurd h hset, accept_char_iff, matches_char hc]
    simp only [ih]

/-- A set of the part, at a place where the part is not within another set. -/
inductive HasSet : List Char → Bool → List Char → Prop where
  | here {s seq rest : List Char} {negated : Bool} (h : Closed s negated seq rest) :
    HasSet ('[' :: s) negated seq
  | pastSet {s seq seq' rest : List Char} {negated negated' : Bool} (h : Closed s negated' seq' rest)
    (hs : HasSet rest negated seq) : HasSet ('[' :: s) negated seq
  | pastOne {c : Char} {s seq : List Char} {negated : Bool}
    (h : c = '[' → ∀ negated seq rest, ¬ Closed s negated seq rest) (hs : HasSet s negated seq) :
    HasSet (c :: s) negated seq

/-- Only what is taken by the sets of a part counts. -/
theorem Matches.imp (h : Matches takes part name)
    (himp : ∀ negated seq, HasSet part negated seq → ∀ c, takes negated seq c → takes' negated seq c) :
    Matches takes' part name := by
  induction h with
  | done => exact .done
  | star piece _ ih =>
    exact .star piece (ih fun n q hq => himp n q (.pastOne (fun he => absurd he (by decide)) hq))
  | any c _ ih =>
    exact .any c (ih fun n q hq => himp n q (.pastOne (fun he => absurd he (by decide)) hq))
  | set hs hc _ ih =>
    exact .set hs (himp _ _ (.here hs) _ hc) (ih fun n q hq => himp n q (.pastSet hs hq))
  | char hc _ ih => exact .char hc (ih fun n q hq => himp n q (.pastOne hc.not_set hq))

theorem matches_denotes (h : ∀ seq, HasSet part false seq → ¬ IsTurned seq) :
    Matches Takes part name ↔ Matches Denotes part name := by
  have hset (negated : Bool) (seq : List Char) (hs : HasSet part negated seq) (c : Char) :
      Takes negated seq c ↔ Denotes negated seq c :=
    takes_of_not_turned fun hn => h seq (hn ▸ hs)
  exact ⟨fun hm => hm.imp fun n q hq c => (hset n q hq c).1,
    fun hm => hm.imp fun n q hq c => (hset n q hq c).2⟩

end Wildcard

theorem names_of_no_slash {n : String} (hw : IsWild n) (h : '/' ∉ n.toList) :
    (Path.ofText n).names = [n] := by
  obtain ⟨c, hc, hwild⟩ := hw
  have hempty : n ≠ "" := by
    rintro rfl
    cases hc
  have hdot : n ≠ "." := by
    rintro rfl
    obtain rfl := List.mem_singleton.1 hc
    exact absurd hwild (by decide)
  simp [Path.ofText, Path.splitText, splitOn_of_not_mem h, hempty, hdot]

namespace Disk

open Wildcard

variable {d : Disk} {root : Path} {q r parts : List String} {slash : Bool} {n : String}

theorem ne_anyDepth (hs : ¬ ['*', '*'] <:+: n.toList) : n ≠ "**" := by
  rintro rfl
  exact hs (by decide)

theorem derives_wild (hw : IsWild n) (hs : ¬ ['*', '*'] <:+: n.toList) :
    d.Derives root slash (n :: parts) q r ↔ ∃ m ∈ d.namesIn (root.append q),
      Matches Takes n.toList m.toList ∧
      (parts ≠ [] ∨ slash = true → d.isDirectory (root.append (q ++ [m])) = true) ∧
      d.Derives root slash parts (q ++ [m]) r := by
  constructor
  · intro h
    cases h with
    | step hc hdir hrest =>
      obtain ⟨m, hm, rfl, hmatch⟩ := (contributes_wild hw (ne_anyDepth hs)).1 hc
      exact ⟨m, hm, (accept_read_iff _ _).1 hmatch, hdir, hrest⟩
  · rintro ⟨m, hm, hmatch, hdir, hrest⟩
    have hc := (contributes_wild hw (ne_anyDepth hs)).2 ⟨m, hm, rfl, (accept_read_iff _ _).2 hmatch⟩
    exact .step hc hdir hrest

theorem isValid_of_wild (hw : IsWild n) (hs : ¬ ['*', '*'] <:+: n.toList) (h : '/' ∉ n.toList) :
    Pattern.IsValid n where
  relative := Pattern.anchor_eq_relative.2 fun he => h (List.mem_of_mem_head? he)
  parts := by
    rw [names_of_no_slash hw h]
    exact List.cons_ne_nil _ _
  stars m hm hstars := by
    rw [names_of_no_slash hw h, List.mem_singleton] at hm
    exact absurd (hm ▸ hstars) hs

theorem candidates_wild (hd : d.IsProper) (root : Path) (excluded : Option (List String))
    (hw : IsWild n) (hs : ¬ ['*', '*'] <:+: n.toList) (h : '/' ∉ n.toList) :
    ∃ l, d.candidates root { patterns := [n], excluded } = .ok l ∧ ∀ q, q ∈ l ↔
      ∃ m ∈ d.namesIn root, q = [m] ∧ d.isFile (root.append [m]) = true ∧
        Matches Takes n.toList m.toList := by
  let s : Selection := { patterns := [n], excluded }
  have hused : s.patternsUsed = [n] := rfl
  have hvalid : ∀ t ∈ s.patternsUsed, Pattern.IsValid t := by
    simpa [hused] using isValid_of_wild hw hs h
  have hslash : Pattern.endsInSlash n = false :=
    decide_eq_false fun he => h (List.mem_of_getLast? he)
  have hroot : root.append [] = root := by rw [Path.append, List.append_nil]
  obtain ⟨l, hl, -, hmem⟩ := candidates_of_valid root hd hvalid
  have hderived (q : List String) : (∃ t ∈ s.patternsUsed,
      d.Derives root (Pattern.endsInSlash t) (Path.ofText t).names [] q) ↔
      ∃ m ∈ d.namesIn root, Matches Takes n.toList m.toList ∧ q = [m] := by
    rw [hused]
    simp [hslash, names_of_no_slash hw h, derives_wild hw hs, derives_nil, hroot]
  refine ⟨l, hl, fun q => (hmem q).trans ⟨fun hq => ?_, ?_⟩⟩
  · obtain ⟨m, hm, hmatch, rfl⟩ := (hderived q).1 hq.derived
    exact ⟨m, hm, rfl, hq.file, hmatch⟩
  · rintro ⟨m, hm, rfl, hfile, hmatch⟩
    exact ⟨(hderived _).2 ⟨m, hm, hmatch, rfl⟩, hfile, fun _ hn => absurd hn List.not_mem_nil⟩

end Disk

open Wildcard

theorem read_wild {n : String} (hw : IsWild n) (hs : ¬ ['*', '*'] <:+: n.toList) :
    Part.read n = .ok (.wild (Token.read n.toList)) := by
  obtain ⟨p, hp⟩ := Pattern.read_part fun h => absurd h hs
  rcases Disk.read_cases hp with ⟨hn, -⟩ | ⟨-, -, rfl⟩ | ⟨hn, -⟩
  · exact absurd hn (Disk.ne_anyDepth hs)
  · exact hp
  · exact absurd hw hn

/-- A wildcard selects the names that can be cut into pieces, one for each of its tokens. All tokens take
what they mean, except for a set with a `!` behind nothing but empty ranges: it is turned, and so are the
names that a part with such a set selects. The walk goes on to the entries with these names, and with
one part the candidates are the files among them. -/
theorem wildcard_iff_matches {n : String} (hw : IsWild n) (hs : ¬ ['*', '*'] <:+: n.toList) :
    Part.read n = .ok (.wild (Token.read n.toList)) ∧
    (∀ m : String, Token.accept (Token.read n.toList) m.toList = true ↔
      Matches Takes n.toList m.toList) ∧
    (∀ negated seq, (∀ c, Takes negated seq c ↔ Denotes negated seq c) ↔
      (negated = false → ¬ IsTurned seq)) ∧
    ((∀ seq, HasSet n.toList false seq → ¬ IsTurned seq) →
      ∀ m : String, Token.accept (Token.read n.toList) m.toList = true ↔
        Matches Denotes n.toList m.toList) ∧
    (∀ (d : Disk) root slash parts q r, d.Derives root slash (n :: parts) q r ↔
      ∃ m ∈ d.namesIn (root.append q), Matches Takes n.toList m.toList ∧
        (parts ≠ [] ∨ slash = true → d.isDirectory (root.append (q ++ [m])) = true) ∧
        d.Derives root slash parts (q ++ [m]) r) ∧
    ∀ (d : Disk) root excluded, d.IsProper → '/' ∉ n.toList →
      ∃ l, d.candidates root { patterns := [n], excluded } = .ok l ∧ ∀ q, q ∈ l ↔
        ∃ m ∈ d.namesIn root, q = [m] ∧ d.isFile (root.append [m]) = true ∧
          Matches Takes n.toList m.toList := by
  have haccept (m : String) := accept_read_iff n.toList m.toList
  exact ⟨read_wild hw hs, haccept, fun _ _ => takes_iff_denotes_iff,
    fun h m => (haccept m).trans (matches_denotes h), fun _ _ _ _ _ _ => Disk.derives_wild hw hs,
    fun _ root excluded hd h => Disk.candidates_wild hd root excluded hw hs h⟩

def bangTree : Disk := ⟨[(["!"], .file []), (["b"], .file []), (["c"], .file [])], []⟩

theorem not_isTurned_of_hasSet {seq : List Char} (h : HasSet ['[', 'a', '-', 'c', ']', '*'] false seq) :
    ¬ IsTurned seq := by
  -- no set of `[a-c]*` is turned: its only one starts with a range that is not empty
  have hread : Token.closeSet? ['a', '-', 'c', ']', '*'] = some (['a', '-', 'c'], ['*']) := by decide
  have hcut {negated : Bool} {seq rest : List Char}
      (hc : Closed ['a', '-', 'c', ']', '*'] negated seq rest) :
      (['a', '-', 'c'], ['*']) = (inside negated seq, rest) :=
    Option.some.inj (hread.symm.trans hc.closeSet?)
  rintro ⟨singles, rest, ht⟩
  cases h with
  | here hc =>
    obtain rfl : ['a', '-', 'c'] = seq := (Prod.mk.inj (hcut hc)).1
    cases ht with
    | empty hlt => exact absurd hlt (by decide)
  | pastSet hc hset =>
    obtain rfl := (Prod.mk.inj (hcut hc)).2
    cases hset with
    | pastOne _ hset => cases hset
  | pastOne hplain =>
    obtain ⟨_, _, -, hc⟩ := closed_of_closeSet? hread
    exact hplain rfl _ _ _ hc

theorem wildcard_iff_matches_turned :
    IsWild "[z-a!b]" ∧ ¬ ['*', '*'] <:+: "[z-a!b]".toList ∧ '/' ∉ "[z-a!b]".toList ∧
    bangTree.IsProper ∧
    bangTree.candidates ⟨.relative, []⟩ { patterns := ["[z-a!b]"] } = .ok [["!"], ["c"]] ∧
    Matches Denotes "[z-a!b]".toList "b".toList ∧ ¬ Matches Takes "[z-a!b]".toList "b".toList ∧
    IsWild "[a-c]*" ∧ ¬ ['*', '*'] <:+: "[a-c]*".toList ∧
    (∀ seq, HasSet "[a-c]*".toList false seq → ¬ IsTurned seq) ∧
    Matches Denotes "[a-c]*".toList "b\n".toList := by
  -- a set that lists `!` and `b` takes all but `b`, since an empty range comes first
  have hwild : IsWild "[z-a!b]" := ⟨'[', by decide, by decide⟩
  have hstars : ¬ ['*', '*'] <:+: "[z-a!b]".toList := by decide
  have hd : bangTree.IsProper := Disk.isProper_of_keys (by decide) (by decide)
  have hrun : bangTree.candidates ⟨.relative, []⟩ { patterns := ["[z-a!b]"] } =
      .ok [["!"], ["c"]] := by decide +kernel
  obtain ⟨-, -, -, -, -, hfiles⟩ := wildcard_iff_matches hwild hstars
  obtain ⟨l, hl, hmem⟩ := hfiles bangTree ⟨.relative, []⟩ none hd (by decide)
  rw [hrun] at hl
  cases hl
  have htaken : ¬ Matches Takes "[z-a!b]".toList "b".toList := fun h =>
    absurd ((hmem ["b"]).2 ⟨"b", by decide, rfl, by decide, h⟩) (by decide)
  have hmeant : Matches Denotes "[z-a!b]".toList "b".toList := by
    have hclosed : Closed ['z', '-', 'a', '!', 'b', ']'] false ['z', '-', 'a', '!', 'b'] [] :=
      ⟨rfl, by decide, by decide, by decide⟩
    have hlisted : Lists ['z', '-', 'a', '!', 'b'] 'b' := .pastRange (.pastOne (by simp) (.self nofun))
    simpa using Matches.set hclosed (iff_of_true hlisted rfl) .done
  have hwild' : IsWild "[a-c]*" := ⟨'*', by decide, by decide⟩
  have hstars' : ¬ ['*', '*'] <:+: "[a-c]*".toList := by decide
  have hturned : ∀ seq, HasSet "[a-c]*".toList false seq → ¬ IsTurned seq := by
    intro seq hset
    exact not_isTurned_of_hasSet (by simpa using hset)
  obtain ⟨-, -, -, hplain, -, -⟩ := wildcard_iff_matches hwild' hstars'
  exact ⟨hwild, hstars, by decide, hd, hrun, hmeant, htaken, hwild', hstars', hturned,
    (hplain hturned "b\n").1 (by decide +kernel)⟩

end EnvKeeper
