import Mathlib.Data.List.Induction
import PathFilter.Proofs.NestedRules
import PathFilter.Proofs.PathRules

/-! # Directories that need not be searched

An include list has no opinion of a directory that may hold something it allows, and denies the
directories that cannot.  A denied directory is not entered, so the list must not allow anything
below it.

* A glob that matches a path below a directory matches the directory or one above it, or some of
  its leading steps match the directory (`StepsMatch.leaves_or_matchesLeading`).  The components
  of the glob must not reach over a slash (`WithinNames`); a slash that a backslash escapes would
  let them.
* So a rule of an include list that applies below a directory applies to the directory or may
  match within it (`Rule.appliesTo_or_mayMatchWithin`).
* **An include list allows nothing below a directory that it denies**, if no negated rule of it
  applies to the directory (`RuleList.verdict_below_ne_allowed`).
-/

namespace PathFilter

/-! ## Globs that match below a directory -/

namespace Pattern
variable {steps : List Step} {dir below : Text}

/-- The components of a glob match names only: none of them reaches over a slash. -/
def WithinNames (steps : List Step) : Prop :=
  ∀ ps m, .component ps ∈ steps → PiecesMatch ps m → '/' ∉ m

/-- The components of segments without slashes match names only. -/
theorem withinNames_of_mapM_ofSegment {ss : List Segment}
    (h : ss.mapM Step.ofSegment = .ok steps) (hss : ∀ s ∈ ss, ∀ g ∈ s, g.char ≠ '/') :
    WithinNames steps := by
  induction ss generalizing steps with
  | nil =>
    obtain rfl := mapM_nil_eq_ok_iff.mp h
    intro ps m hps
    cases hps
  | cons s ss ih =>
    obtain ⟨step, steps, hstep, hsteps, rfl⟩ := mapM_cons_eq_ok_iff.mp h
    intro ps m hps hm
    rcases List.mem_cons.mp hps with hps | hps
    · obtain ⟨-, hstep⟩ | ⟨-, ps', hpieces, hstep⟩ := ofSegment_eq_ok_iff.mp hstep
      · cases hps.trans hstep
      · cases hps.trans hstep
        exact (hasPieces_of_pieces hpieces).slash_not_mem (hss s List.mem_cons_self) hm
    · exact ih hsteps (fun s hs => hss s (List.mem_cons_of_mem _ hs)) ps m hps hm

/-- A name at the beginning of a path ends where the directory of the path ends or before. -/
theorem exists_append_of_slash_not_mem {m r : Text} (hm : '/' ∉ m)
    (h : dir ++ '/' :: below = m ++ r) : ∃ y, dir = m ++ y ∧ r = y ++ '/' :: below := by
  rcases List.append_eq_append_iff.mp h with ⟨y, rfl, hy⟩ | ⟨y, rfl, rfl⟩
  · cases y with
    | nil => exact ⟨[], by simp, hy.symm⟩
    | cons c y =>
      obtain ⟨rfl, -⟩ := List.cons.inj hy
      exact absurd (List.mem_append_right dir List.mem_cons_self) hm
  · exact ⟨y, rfl, rfl⟩

/-- What ends a path below a directory ends the directory as well, or lies below it. -/
theorem Ends.of_append {y : Text} (h : Ends (y ++ '/' :: below)) : Ends y := by
  cases y with
  | nil => exact Or.inl rfl
  | cons c y =>
    obtain h | ⟨below', h⟩ := h
    · cases h
    · obtain ⟨rfl, -⟩ := List.cons.inj h
      exact Or.inr ⟨y, rfl⟩

/-- **A glob that matches below a directory matches the directory or one above it, or begins to
match there.** -/
theorem StepsMatch.leaves_or_matchesLeading {m r : Text} (hm : StepsMatch steps m)
    (hfree : WithinNames steps) (hne : dir ≠ []) (hend : Text.endsIn '/' dir = false)
    (heq : dir ++ '/' :: below = m ++ r) (hr : Ends r) :
    (∃ r', Leaves steps dir r' ∧ Ends r') ∨ matchesLeading steps dir = true := by
  induction hm generalizing dir with
  | nil =>
    obtain ⟨y, hy, rfl⟩ := exists_append_of_slash_not_mem List.not_mem_nil heq
    exact Or.inl ⟨y, ⟨[], hy, .nil⟩, hr.of_append⟩
  | component hps =>
    obtain ⟨y, hy, rfl⟩ :=
      exists_append_of_slash_not_mem (hfree _ _ List.mem_cons_self hps) heq
    exact Or.inl ⟨y, ⟨_, hy, .component hps⟩, hr.of_append⟩
  | rest =>
    exact Or.inl ⟨[], ⟨dir, (List.append_nil dir).symm, .rest hne⟩, Or.inl rfl⟩
  | @slash ps step steps m t hps _ ih =>
    have hm : '/' ∉ m := hfree ps m List.mem_cons_self hps
    rw [List.append_assoc] at heq
    obtain ⟨y, rfl, hy⟩ := exists_append_of_slash_not_mem hm heq
    cases y with
    | nil =>
      -- the first component is the whole directory
      apply Or.inr
      rw [matchesLeading]
      exact matchPieces_isSome hps rfl
    | cons c y =>
      obtain ⟨rfl, hbehind⟩ := List.cons.inj hy
      have hy' : y ≠ [] := by
        rintro rfl
        rw [Text.endsIn_concat] at hend
        cases hend
      have hend' : Text.endsIn '/' y = false := by
        rw [← hend, ← List.singleton_append, ← List.append_assoc, Text.endsIn_append_right _ hy']
      obtain ⟨r', ⟨m', rfl, hm'⟩, hr'⟩ | hlead :=
        ih (fun ps' m' h => hfree ps' m' (List.mem_cons_of_mem _ h)) hy' hend' hbehind.symm
      · exact Or.inl ⟨r', ⟨m ++ '/' :: m', by simp, .slash hps hm'⟩, hr'⟩
      · apply Or.inr
        rw [matchesLeading]
        refine matchPieces_isSome hps ?_
        simp [behindSlash, hlead]
  | none => exact Or.inr (by rw [matchesLeading])
  | some => exact Or.inr (by rw [matchesLeading])

namespace PathPattern
variable {p : PathPattern}

/-- The components of a pattern match names only, if its body has no escaped slash. -/
theorem withinNames_of_ofBody {body : PathBody} (hp : ofBody body = .ok p)
    (hesc : ∀ gs, glyphs body.text = .ok gs → ⟨'/', true⟩ ∉ gs) : WithinNames p.steps := by
  obtain ⟨ss, hss, -, hsteps, -, -⟩ := ofBody_eq_ok hp
  exact withinNames_of_mapM_ofSegment hsteps (readLone_slash_free hss hesc)

/-- What the pattern of an include list accepts, it matches, or a directory above it. -/
theorem exists_leaves_of_accepts {path : Text} {isDir : Bool}
    (h : p.accepts true path isDir = true) : ∃ r, Leaves p.allSteps path r ∧ Ends r := by
  obtain ⟨hm, -⟩ | ⟨-, m, below, rfl, hm⟩ := accepts_true_iff.mp h
  · exact ⟨[], ⟨path, (List.append_nil path).symm, hm⟩, Or.inl rfl⟩
  · exact ⟨'/' :: below, ⟨m, rfl, hm⟩, Or.inr ⟨below, rfl⟩⟩

/-- The pattern of an include list accepts a directory that it matches, or one above it. -/
theorem accepts_directory {path r : Text} (h : Leaves p.allSteps path r) (hr : Ends r) :
    p.accepts true path true = true := by
  rw [accepts_true_iff]
  by_cases hpath : p.Matches path
  · exact Or.inl ⟨hpath, fun _ => rfl⟩
  · obtain ⟨m, rfl, hm⟩ := h
    obtain rfl | ⟨below, rfl⟩ := hr
    · rw [List.append_nil] at hpath
      exact absurd hm hpath
    · exact Or.inr ⟨hpath, m, below, rfl, hm⟩

/-- A pattern that accepts something below a directory accepts the directory or may match below
it. -/
theorem accepts_or_mayMatchBelow {isDir : Bool} (hfree : WithinNames p.steps) (hne : dir ≠ [])
    (hend : Text.endsIn '/' dir = false)
    (h : p.accepts true (dir ++ '/' :: below) isDir = true) :
    p.accepts true dir true = true ∨ p.mayMatchBelow true dir = true := by
  by_cases hanchored : p.anchored = true
  · obtain ⟨r, ⟨m, heq, hm⟩, hr⟩ := exists_leaves_of_accepts h
    have hall : p.allSteps = p.steps := if_pos hanchored
    rw [hall] at hm
    obtain ⟨r', hleaves, hr'⟩ | hlead := hm.leaves_or_matchesLeading hfree hne hend heq hr
    · exact Or.inl (accepts_directory (hall ▸ hleaves) hr')
    · exact Or.inr (by simp [mayMatchBelow, hlead])
  · exact Or.inr (by simp [mayMatchBelow, hanchored])

end PathPattern

/-- Whether a backslash escapes a slash in the path pattern on a line. -/
def Line.escapesSlash (line : Text) : Bool :=
  match Line.read line with
  | some (.path _ body) => (glyphs body.text).toOption.any fun gs => ⟨'/', true⟩ ∈ gs
  | _ => false

theorem Line.not_mem_glyphs {line : Text} {negated : Bool} {body : PathBody}
    (h : Line.escapesSlash line = false) (hread : Line.read line = some (.path negated body))
    {gs : List Glyph} (hgs : glyphs body.text = .ok gs) : ⟨'/', true⟩ ∉ gs := by
  rw [Line.escapesSlash, hread] at h
  simpa [hgs, Except.toOption] using h

end Pattern

/-! ## Rules that apply below a directory -/

namespace Candidate
variable {d : Pathname} {root : Text} {firstLine : Option Text}

/-- Every absolute root lies in the topmost directory. -/
theorem encloses_of_components_eq_nil (hd : d.IsNormal) (hnil : d.components = [])
    (hroot : root.head? = some '/') : encloses ⟨d.toText, true, firstLine⟩ root = true := by
  have hdrop : Text.dropTrailing (· = '/') d.toText = [] := by
    rw [Pathname.toText_of_anchored hd.anchored, hnil]
    cases d.anchor <;> rfl
  cases root with
  | nil => cases hroot
  | cons a root =>
    obtain rfl : a = '/' := Option.some.inj hroot
    rw [encloses, hdrop, Bool.true_and, List.isPrefixOf_iff_prefix]
    exact ⟨root, rfl⟩

theorem encloses_iff (hd : d.IsNormal) (hne : d.components ≠ []) :
    encloses ⟨d.toText, true, firstLine⟩ root = true ↔ d.dirText <+: root := by
  rw [encloses, Bool.true_and, List.isPrefixOf_iff_prefix,
    Text.dropTrailing_of_endsIn_eq_false (hd.endsIn_toText hne), hd.dirText_eq_toText_append hne]

/-- A root that something below a directory is relative to lies in the directory, or the directory
is below it. -/
theorem encloses_or_below (hd : d.IsNormal) {rel rel' : Text} (hroot : root.endsIn '/')
    (heq : d.dirText ++ rel = root ++ rel') (firstLine : Option Text) :
    encloses ⟨d.toText, true, firstLine⟩ root = true ∨
      ∃ x, x ≠ [] ∧ Text.endsIn '/' x = false ∧ d.toText = root ++ x ∧ rel' = x ++ '/' :: rel := by
  by_cases hnil : d.components = []
  · have hhead := hd.head?_dirText_append rel
    rw [heq, List.head?_append_of_ne_nil root (by rintro rfl; cases hroot)] at hhead
    exact Or.inl (encloses_of_components_eq_nil hd hnil hhead)
  · rw [encloses_iff hd hnil]
    rcases List.append_eq_append_iff.mp heq with ⟨y, rfl, -⟩ | ⟨y, hy, rfl⟩
    · exact Or.inl (List.prefix_append _ y)
    · rcases List.eq_nil_or_concat y with rfl | ⟨x, a, rfl⟩
      · exact Or.inl ⟨[], by simpa using hy⟩
      · have hend := hd.endsIn_toText hnil
        rw [hd.dirText_eq_toText_append hnil, List.concat_eq_append, ← List.append_assoc] at hy
        obtain ⟨htext, hslash⟩ := List.append_inj' hy rfl
        cases hslash
        have hx : x ≠ [] := by
          rintro rfl
          rw [htext, List.append_nil, hroot] at hend
          cases hend
        rw [htext, Text.endsIn_append_right root hx] at hend
        exact Or.inr ⟨x, hx, hend, htext, by simp⟩

end Candidate

namespace Rule
open Pattern
variable {r : Rule} {root line : Text} {d : Pathname} {c : Candidate} {rel : Text}

/-- A rule may match within a directory that its root lies in, or that may lead to a match. -/
theorem mayMatchWithin_iff (hroot : r.root? = some root) : r.mayMatchWithin c = true ↔
    c.isDir = true ∧ r.negated = false ∧
      (c.encloses root = true ∨ ∃ x, c.below? root = some x ∧ r.mayMatchBelow x = true) := by
  rw [mayMatchWithin, hroot, Option.any_some, Bool.and_eq_true, Bool.and_eq_true, Bool.or_eq_true,
    Bool.not_eq_true', Option.any_eq_true, and_assoc]

/-- **A rule of an include list that applies below a directory applies to the directory or may
match within it.** -/
theorem appliesTo_or_mayMatchWithin (hr : ofLine? root true line = some r)
    (hline : Line.escapesSlash line = false) (hnegated : r.negated = false) (hd : d.IsNormal)
    (hc : c.path = d.dirText ++ rel) (happlies : r.appliesTo c = true)
    (firstLine : Option Text) :
    r.appliesTo ⟨d.toText, true, firstLine⟩ = true ∨
      r.mayMatchWithin ⟨d.toText, true, firstLine⟩ = true := by
  obtain ⟨root', rel', hroot, hrel', hpath⟩ := exists_root_of_appliesTo happlies
  have hend : root'.endsIn '/' := root?_of_ofLine? hr root' hroot ▸ Path.endsIn_slashed root
  obtain hencloses | ⟨x, hx, hxend, hdir, rfl⟩ :=
    Candidate.encloses_or_below hd hend (hc.symm.trans hpath) firstLine
  · exact Or.inr ((mayMatchWithin_iff hroot).mpr ⟨rfl, hnegated, Or.inl hencloses⟩)
  · have hbelow : Candidate.below? ⟨d.toText, true, firstLine⟩ root' = some x :=
      Candidate.below?_eq_some hx hdir
    have hwithin : r.mayMatchBelow x = true → r.mayMatchWithin ⟨d.toText, true, firstLine⟩ = true :=
      fun hmay => (mayMatchWithin_iff hroot).mpr ⟨rfl, hnegated, Or.inr ⟨x, hbelow, hmay⟩⟩
    cases r with
    | path r =>
      obtain rfl : r.root = root' := Option.some.inj hroot
      obtain ⟨negated, body, pattern, hread, hp, rfl⟩ := ofLine?_eq_path_iff.mp hr
      rw [appliesTo_path_iff hrel' hpath] at happlies
      have hfree := PathPattern.withinNames_of_ofBody hp
        (fun gs hgs => Line.not_mem_glyphs hline hread hgs)
      obtain haccepts | hmay := PathPattern.accepts_or_mayMatchBelow hfree hx hxend happlies
      · exact Or.inl ((appliesTo_path_iff hx hdir).mpr haccepts)
      · exact Or.inr (hwithin hmay)
    | interpreter r => exact Or.inr (hwithin rfl)
    | unmatchable line negated => cases hroot

end Rule

/-! ## Lists -/

namespace RuleList
variable {allow : Bool} {c : Candidate} {rules : List Rule} {l : RuleList}

/-- An opinion is that of some rule that applies. -/
theorem exists_opinion_eq (h : lastOpinion allow c rules ≠ .noOpinion) :
    ∃ r ∈ rules, r.appliesTo c = true ∧ opinion allow r = lastOpinion allow c rules := by
  induction rules using List.reverseRecOn with
  | nil => exact absurd rfl h
  | append_singleton rules r ih =>
    rw [lastOpinion_concat] at h ⊢
    by_cases hr : r.appliesTo c = true
    · rw [if_pos hr]
      exact ⟨r, by simp, hr, rfl⟩
    · rw [if_neg hr] at h ⊢
      obtain ⟨r', hmem, hr'⟩ := ih h
      exact ⟨r', List.mem_append_left _ hmem, hr'⟩

/-- A list without an opinion has no rule that applies. -/
theorem appliesTo_eq_false (h : lastOpinion allow c rules = .noOpinion) {r : Rule}
    (hr : r ∈ rules) : r.appliesTo c = false := by
  induction rules using List.reverseRecOn with
  | nil => cases hr
  | append_singleton rules r' ih =>
    rw [lastOpinion_concat] at h
    by_cases hr' : r'.appliesTo c = true
    · rw [if_pos hr'] at h
      exact absurd h (opinion_ne_noOpinion allow r')
    · rw [if_neg hr'] at h
      rcases List.mem_append.mp hr with hr | hr
      · exact ih h hr
      · rw [List.mem_singleton.mp hr]
        exact Bool.eq_false_iff.mpr hr'

/-- What an include list allows, a rule applies to that is not negated. -/
theorem exists_of_verdict_eq_allowed (hallow : l.allow = true) (h : l.verdict c = .allowed) :
    ∃ r ∈ l.rules, r.negated = false ∧ r.appliesTo c = true := by
  have hlast : lastOpinion l.allow c l.rules = .allowed := by
    rw [verdict] at h
    split at h
    · split at h <;> cases h
    · exact h
  obtain ⟨r, hr, happlies, hopinion⟩ := exists_opinion_eq (fun h => by rw [hlast] at h; cases h)
  rw [hlast, hallow, opinion_true] at hopinion
  by_cases hnegated : r.negated = true
  · rw [if_pos hnegated] at hopinion
    cases hopinion
  · exact ⟨r, hr, Bool.eq_false_iff.mpr hnegated, happlies⟩

/-- What an include list denies although no negated rule applies, no rule applies to, and none may
match within. -/
theorem appliesTo_eq_false_of_verdict_eq_denied (hallow : l.allow = true)
    (h : l.verdict c = .denied)
    (hnegated : ∀ r ∈ l.rules, r.negated = true → r.appliesTo c = false) :
    ∀ r ∈ l.rules, r.appliesTo c = false ∧ r.mayMatchWithin c = false := by
  have hnone : lastOpinion l.allow c l.rules = .noOpinion := by
    by_contra hopinion
    obtain ⟨r, hr, happlies, heq⟩ := exists_opinion_eq hopinion
    have hpositive : ¬ r.negated = true := by
      intro hneg
      rw [hnegated r hr hneg] at happlies
      cases happlies
    rw [hallow, opinion_true, if_neg hpositive] at heq
    rw [verdict, hallow, ← heq] at h
    cases h
  rw [verdict, hnone] at h
  simp only [hallow, Bool.not_true, Bool.or_false] at h
  split at h
  · cases h
  · rename_i hmay
    rw [Bool.or_eq_true, not_or, List.any_eq_true] at hmay
    intro r hr
    refine ⟨appliesTo_eq_false hnone hr, Bool.eq_false_iff.mpr fun hwithin => ?_⟩
    exact hmay.2 ⟨r, hr, hwithin⟩

/-- The include list of the rules on lines, each line with the directory that it is relative to. -/
def including (lines : List (Text × Text)) : RuleList :=
  ⟨lines.filterMap fun l => Rule.ofLine? l.1 true l.2, true⟩

/-- **An include list allows nothing below a directory that it denies**, if no negated rule applies
to the directory.  A slash that a backslash escapes is left out. -/
theorem verdict_below_ne_allowed {lines : List (Text × Text)}
    (hlines : ∀ l ∈ lines, Pattern.Line.escapesSlash l.2 = false) {d : Text}
    (hd : Path.normalize d = d) (habsolute : d.head? = some '/') {firstLine : Option Text}
    (hdenied : (including lines).verdict ⟨d, true, firstLine⟩ = .denied)
    (hnegated : ∀ r ∈ (including lines).rules, r.negated = true →
      r.appliesTo ⟨d, true, firstLine⟩ = false)
    (hc : Path.slashed d <+: c.path) : (including lines).verdict c ≠ .allowed := by
  intro hallowed
  obtain ⟨rel, hc⟩ := hc
  obtain ⟨hnormal, htext⟩ := Pathname.isNormal_ofText hd (Anchor.ofText_ne_relative habsolute)
  rw [← htext, hnormal.slashed_toText] at hc
  rw [← htext] at hdenied hnegated
  -- the rule that allows what lies below
  obtain ⟨r, hr, hpositive, happlies⟩ := exists_of_verdict_eq_allowed rfl hallowed
  obtain ⟨⟨root, line⟩, hline, hread⟩ := List.mem_filterMap.mp hr
  obtain ⟨hself, hwithin⟩ := appliesTo_eq_false_of_verdict_eq_denied rfl hdenied hnegated r hr
  obtain h | h := r.appliesTo_or_mayMatchWithin hread (hlines _ hline) hpositive hnormal hc.symm
    happlies firstLine
  · rw [hself] at h
    cases h
  · rw [hwithin] at h
    cases h

/-- Lines of several kinds: one that asks for directories, a negated one, one for an interpreter
below another root, and a malformed one. -/
def assorted : List (Text × Text) :=
  [("/r".toList, "/a/**/x/".toList), ("/r".toList, "!/b/k".toList),
   ("/q".toList, "#!:python".toList), ("/r".toList, "a\\".toList)]

/-- They deny the directory `/r/b`, and allow no file in it. -/
theorem verdict_below_assorted :
    (including assorted).verdict ⟨"/r/b".toList, true, none⟩ = .denied ∧
      (including assorted).verdict ⟨"/r/b/x".toList, false, none⟩ ≠ .allowed := by
  have hdenied : (including assorted).verdict ⟨"/r/b".toList, true, none⟩ = .denied := by
    decide +kernel
  refine ⟨hdenied, verdict_below_ne_allowed ?_ ?_ rfl hdenied ?_ ?_⟩
  · decide +kernel
  · decide +kernel
  · decide +kernel
  · exact ⟨"x".toList, by decide +kernel⟩

end RuleList
end PathFilter
