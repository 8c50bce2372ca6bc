import PathFilter.Proofs.PatternMeaning
import PathFilter.Rule.Basic

/-! # What path rules match

A rule for paths matches a candidate by the names that lead from its root down to it.

* A pattern is tied to its root by a slash at its beginning, or by one that stands between two of
  its segments (`HasInnerSlash`, `tiedBySlash_iff`).
* **A rule of an ignore list matches a candidate exactly if the segments of its line match these
  names** and, where the line ends in a slash, the candidate is a directory
  (`appliesTo_iff_globMatches`).
* A rule of an include list also reaches what lies inside of a directory that the same line would
  match in an ignore list (`appliesTo_include_iff`).  One case falls out of it: a line that asks
  for directories misses a file inside of a matched directory if the file itself bears a path
  that the line matches (`include_misses_file_named_as_directory`).
-/

namespace PathFilter
open Pattern

/-! ## Slashes that tie a pattern to its root -/

namespace Pattern
variable {ss core : List Segment}

/-- A slash stands between two of the segments that is neither the one behind a first `**` nor the
one in front of a last `**`.  So more than one segment is left when a first `**` is dropped and
then, if more than one is left, a last one. -/
def HasInnerSlash (ss : List Segment) : Prop :=
  ∃ as s t bs, ss = as ++ s :: t :: bs ∧
    ¬ (as = [] ∧ s = globstar) ∧ ¬ (bs = [] ∧ t = globstar)

/-- The slash stands behind a first `**`, once that is dropped. -/
theorem hasInnerSlash_iff :
    HasInnerSlash ss ↔ ∃ as s t bs,
      (if ss.head? = some globstar then ss.tail else ss) = as ++ s :: t :: bs ∧
        ¬ (bs = [] ∧ t = globstar) := by
  split
  · rename_i hhead
    obtain ⟨rest, rfl⟩ := List.head?_eq_some_iff.mp hhead
    constructor
    · rintro ⟨as, s, t, bs, h, hfirst, hlast⟩
      cases as with
      | nil => exact absurd ⟨rfl, (List.cons.inj h).1.symm⟩ hfirst
      | cons a as => exact ⟨as, s, t, bs, (List.cons.inj h).2, hlast⟩
    · rintro ⟨as, s, t, bs, h, hlast⟩
      exact ⟨globstar :: as, s, t, bs, congrArg (globstar :: ·) h, by simp, hlast⟩
  · rename_i hhead
    constructor
    · rintro ⟨as, s, t, bs, h, -, hlast⟩
      exact ⟨as, s, t, bs, h, hlast⟩
    · rintro ⟨as, s, t, bs, rfl, hlast⟩
      refine ⟨as, s, t, bs, rfl, ?_, hlast⟩
      rintro ⟨rfl, rfl⟩
      exact hhead rfl

/-- The slash stands in front of a last `**`, where more than one segment is left without that. -/
theorem one_lt_length_core_iff :
    1 < (if 1 < core.length && core.getLast? = some globstar then core.dropLast
        else core).length ↔
      ∃ as s t bs, core = as ++ s :: t :: bs ∧ ¬ (bs = [] ∧ t = globstar) := by
  constructor
  · intro hlength
    split at hlength
    · -- behind the first two segments stands the one that is dropped
      rw [List.length_dropLast] at hlength
      match core, hlength with
      | s :: t :: u :: bs, _ => exact ⟨[], s, t, u :: bs, rfl, by simp⟩
    · rename_i hlast
      match core, hlength, hlast with
      | s :: t :: bs, _, hlast =>
        refine ⟨[], s, t, bs, rfl, ?_⟩
        rintro ⟨rfl, rfl⟩
        exact hlast rfl
  · rintro ⟨as, s, t, bs, rfl, hlast⟩
    split
    · rename_i hdrop
      cases bs with
      | nil =>
        have ht : t = globstar := by simpa using (Bool.and_eq_true_iff.mp hdrop).2
        exact absurd ⟨rfl, ht⟩ hlast
      | cons u bs =>
        rw [List.length_dropLast, List.length_append]
        simp only [List.length_cons]
        omega
    · rw [List.length_append]
      simp only [List.length_cons]
      omega

/-- **Segments are tied to their root exactly if a slash stands between two of them**, not counting
those of a first and a last `**`. -/
theorem tiedBySlash_iff : tiedBySlash ss = true ↔ HasInnerSlash ss := by
  rw [hasInnerSlash_iff, ← one_lt_length_core_iff]
  exact decide_eq_true_iff

instance (ss : List Segment) : Decidable (HasInnerSlash ss) :=
  decidable_of_iff _ tiedBySlash_iff

end Pattern

/-! ## Rules and where they apply -/

/-- A candidate at a path below a root is related to that root by this path. -/
theorem Candidate.below?_eq_some {c : Candidate} {root rel : Text} (hrel : rel ≠ [])
    (hc : c.path = root ++ rel) : c.below? root = some rel :=
  Path.below?_eq_some_iff.mpr ⟨hrel, hc⟩

namespace Rule

/-- The rule on a line that holds a path pattern. -/
theorem ofLine?_eq_path_iff {root line : Text} {allow : Bool} {r : PathRule} :
    ofLine? root allow line = some (.path r) ↔
      ∃ negated body pattern, Line.read line = some (.path negated body) ∧
        PathPattern.ofBody body = .ok pattern ∧
        r = { line, root := Path.slashed root, negated, allow, pattern } := by
  rw [ofLine?, Option.map_eq_some_iff]
  constructor
  · rintro ⟨l, hl, h⟩
    cases l with
    | interpreter negated name =>
      rw [ofPattern] at h
      split at h <;> cases h
    | path negated body =>
      rw [ofPattern] at h
      cases hp : PathPattern.ofBody body with
      | error e => rw [hp] at h; cases h
      | ok pattern =>
        rw [hp] at h
        cases h
        exact ⟨negated, body, pattern, hl, hp, rfl⟩
  · rintro ⟨negated, body, pattern, hl, hp, rfl⟩
    refine ⟨_, hl, ?_⟩
    rw [ofPattern, hp]

/-- A rule for paths applies to what its pattern accepts. -/
theorem appliesTo_path_iff {r : PathRule} {c : Candidate} {rel : Text} (hrel : rel ≠ [])
    (hc : c.path = r.root ++ rel) :
    (Rule.path r).appliesTo c = true ↔ r.pattern.accepts r.allow rel c.isDir = true := by
  rw [appliesTo, Candidate.below?_eq_some hrel hc, Option.any_some]

section Names
open Text
variable {root line : Text} {negated : Bool} {body : PathBody} {r : PathRule} {c : Candidate}
  {cs : List Text}

/-! ## Ignore lists -/

/-- **A rule of an ignore list matches a candidate exactly if the segments of its line match the
names that lead down to it**, all of them where the line has a slash at its beginning or between two
segments and those of some end of the path otherwise, and the candidate is a directory if the line
asks for one.  A slash that a backslash escapes is left out. -/
theorem appliesTo_iff_globMatches (hroot : root.endsIn '/')
    (hline : Line.read line = some (.path negated body))
    (hesc : ∀ gs, glyphs body.text = .ok gs → ⟨'/', true⟩ ∉ gs)
    (hr : ofLine? root false line = some (.path r))
    (hne : cs ≠ []) (hcs : ∀ c ∈ cs, c.IsName) (hc : c.path = root ++ joinWith '/' cs) :
    ∃ ss, segments body.text = .ok ss ∧
      ((Rule.path r).appliesTo c = true ↔
        (body.directoryOnly = true → c.isDir = true) ∧
          if body.leadingSlash = true ∨ HasInnerSlash (readLone ss) then
            GlobMatches (readLone ss) cs
          else ∃ t, t ≠ [] ∧ t <:+ cs ∧ GlobMatches (readLone ss) t) := by
  obtain ⟨negated', body', pattern, hline', hp, rfl⟩ := ofLine?_eq_path_iff.mp hr
  cases hline.symm.trans hline'
  obtain ⟨ss, hss, -, -, hanchored, hdir⟩ := ofBody_eq_ok hp
  refine ⟨ss, hss, ?_⟩
  have hrel : joinWith '/' cs ≠ [] := joinWith_ne_nil hne (fun c hc => (hcs c hc).1)
  rw [← Path.slashed_of_endsIn hroot] at hc
  rw [appliesTo_path_iff hrel hc, PathPattern.accepts_false_iff,
    PathPattern.matches_joinWith_iff_globMatches hp hss hesc hne hcs, hanchored, hdir]
  simp only [Bool.or_eq_true, tiedBySlash_iff]
  exact and_comm

/-- The line `a/**/?` matches the file `c`, of one character, that lies below `a`. -/
theorem appliesTo_short_name_below :
    ∃ r ss, ofLine? ['/'] false ['a', '/', '*', '*', '/', '?'] = some (.path r) ∧
      segments ['a', '/', '*', '*', '/', '?'] = .ok ss ∧ HasInnerSlash (readLone ss) ∧
      GlobMatches (readLone ss) [['a'], ['b'], ['c']] ∧
      (Rule.path r).appliesTo ⟨['/', 'a', '/', 'b', '/', 'c'], false, none⟩ = true := by
  have hline : Line.read ['a', '/', '*', '*', '/', '?'] =
      some (.path false ⟨['a', '/', '*', '*', '/', '?'], false, false⟩) := rfl
  have hr : ofLine? ['/'] false ['a', '/', '*', '*', '/', '?'] = some (.path _) := rfl
  have hesc : ∀ gs, glyphs ['a', '/', '*', '*', '/', '?'] = .ok gs → ⟨'/', true⟩ ∉ gs := by
    rintro gs h
    cases h
    decide
  have hroot : endsIn '/' ['/'] = true := rfl
  have hnames : ∀ c ∈ [['a'], ['b'], ['c']], IsName c := by decide
  obtain ⟨ss, hss, hiff⟩ := appliesTo_iff_globMatches
    (c := ⟨['/', 'a', '/', 'b', '/', 'c'], false, none⟩) hroot hline hesc hr (by simp) hnames rfl
  obtain rfl : ss = [[.bare 'a'], globstar, [.bare '?']] := Except.ok.inj (hss.symm.trans rfl)
  have hslash : HasInnerSlash (readLone [[.bare 'a'], globstar, [.bare '?']]) := by decide
  -- the two stars stand for the name `b`, and the question mark for `c`
  have hlast : GlobMatches [[.bare '?']] [['c']] :=
    .component (by decide) (.anyChar .nil) .nil
  have hbelow : GlobMatches [globstar, [.bare '?']] [['b'], ['c']] :=
    @GlobMatches.globstar _ [['b']] _ (List.cons_ne_nil _ _) hlast
  have hmatches : GlobMatches (readLone [[.bare 'a'], globstar, [.bare '?']])
      [['a'], ['b'], ['c']] :=
    .component (by decide) (.literal (by decide) (by decide) (by decide) .nil) hbelow
  refine ⟨_, _, hr, hss, hslash, hmatches, hiff.mpr ⟨nofun, ?_⟩⟩
  rw [if_pos (.inr hslash)]
  exact hmatches

/-! ## Include lists -/

/-- A rule of an include list has the pattern that the same line has in an ignore list. -/
theorem ofLine?_include {r : PathRule} (h : ofLine? root false line = some (.path r)) :
    ofLine? root true line = some (.path { r with allow := true }) := by
  obtain ⟨negated, body, pattern, hl, hp, rfl⟩ := ofLine?_eq_path_iff.mp h
  exact ofLine?_eq_path_iff.mpr ⟨negated, body, pattern, hl, hp, rfl⟩

/-- Whether a rule matches a candidate as a directory, whatever the candidate is. -/
def appliesAsDirectory (r : Rule) (path : Text) : Bool :=
  r.appliesTo ⟨path, true, none⟩

/-- **A rule of an include list matches what the same line matches in an ignore list, and what
lies inside of a directory that it matches there**, but for one case: where the line asks for
directories, a file whose own path it matches stays out, whatever directory the file is in. -/
theorem appliesTo_include_iff {r : PathRule} (hr : ofLine? root false line = some (.path r))
    (hne : cs ≠ []) (hcs : ∀ c ∈ cs, c.IsName)
    (hc : c.path = Path.slashed root ++ joinWith '/' cs) :
    ∃ r', ofLine? root true line = some (.path r') ∧
      ((Rule.path r').appliesTo c = true ↔
        ((Rule.path r).appliesTo c = true ∨
          ∃ as bs, as ≠ [] ∧ bs ≠ [] ∧ cs = as ++ bs ∧
            (Rule.path r).appliesAsDirectory (Path.slashed root ++ joinWith '/' as) = true) ∧
        ¬ (r.pattern.directoryOnly = true ∧ c.isDir = false ∧
            (Rule.path r).appliesAsDirectory c.path = true)) := by
  refine ⟨{ r with allow := true }, ofLine?_include hr, ?_⟩
  obtain ⟨negated, body, pattern, -, -, rfl⟩ := ofLine?_eq_path_iff.mp hr
  have hrel : ∀ {ds : List Text}, ds ≠ [] → (∀ d ∈ ds, d.IsName) → joinWith '/' ds ≠ [] :=
    fun hne hds => joinWith_ne_nil hne (fun d hd => (hds d hd).1)
  have hself : (Rule.path ⟨line, Path.slashed root, negated, false, pattern⟩).appliesAsDirectory
      c.path = true ↔ pattern.Matches (joinWith '/' cs) := by
    rw [appliesAsDirectory, appliesTo_path_iff (hrel hne hcs) hc, PathPattern.accepts_false_iff]
    simp
  -- the directories above the candidate are the beginnings of its list of names
  have habove : (∃ m below, joinWith '/' cs = m ++ '/' :: below ∧ pattern.Matches m) ↔
      ∃ as bs, as ≠ [] ∧ bs ≠ [] ∧ cs = as ++ bs ∧
        (Rule.path ⟨line, Path.slashed root, negated, false, pattern⟩).appliesAsDirectory
          (Path.slashed root ++ joinWith '/' as) = true := by
    have happlies : ∀ {as : List Text}, as ≠ [] → (∀ a ∈ as, a.IsName) →
        ((Rule.path ⟨line, Path.slashed root, negated, false, pattern⟩).appliesAsDirectory
          (Path.slashed root ++ joinWith '/' as) = true ↔ pattern.Matches (joinWith '/' as)) := by
      intro as ha has
      rw [appliesAsDirectory, appliesTo_path_iff (hrel ha has) rfl, PathPattern.accepts_false_iff]
      simp
    constructor
    · rintro ⟨m, below, hpath, hm⟩
      obtain ⟨as, bs, ha, hb, rfl, rfl, rfl⟩ :=
        (joinWith_eq_append_cons_iff (fun c hc => (hcs c hc).2) hne).mp hpath
      have has : ∀ a ∈ as, a.IsName := fun a h => hcs a (List.mem_append_left bs h)
      exact ⟨as, bs, ha, hb, rfl, (happlies ha has).mpr hm⟩
    · rintro ⟨as, bs, ha, hb, rfl, hm⟩
      have has : ∀ a ∈ as, a.IsName := fun a h => hcs a (List.mem_append_left bs h)
      exact ⟨joinWith '/' as, joinWith '/' bs, joinWith_append '/' ha hb, (happlies ha has).mp hm⟩
  rw [← habove, hself, appliesTo_path_iff (hrel hne hcs) hc, appliesTo_path_iff (hrel hne hcs) hc,
    PathPattern.accepts_true_iff, PathPattern.accepts_false_iff]
  by_cases hm : pattern.Matches (joinWith '/' cs)
  · cases pattern.directoryOnly <;> cases c.isDir <;> simp [hm]
  · simp [hm]

/-- The line `a/` of an include list matches the file `b` inside of `a`, which it does not match in
an ignore list. -/
theorem appliesTo_include_inside :
    ∃ r r', ofLine? ['/'] false ['a', '/'] = some (.path r) ∧
      ofLine? ['/'] true ['a', '/'] = some (.path r') ∧
      (Rule.path r).appliesTo ⟨['/', 'a', '/', 'b'], false, none⟩ = false ∧
      (Rule.path r).appliesAsDirectory ['/', 'a'] = true ∧
      (Rule.path r').appliesTo ⟨['/', 'a', '/', 'b'], false, none⟩ = true := by
  have hr : ofLine? ['/'] false ['a', '/'] = some (.path _) := rfl
  have hnames : ∀ c ∈ [['a'], ['b']], IsName c := by decide
  obtain ⟨r', hr', hiff⟩ := appliesTo_include_iff hr
    (c := ⟨['/', 'a', '/', 'b'], false, none⟩) (by simp) hnames rfl
  refine ⟨_, r', hr, hr', by decide, by decide, hiff.mpr ⟨.inr ?_, by decide⟩⟩
  exact ⟨[['a']], [['b']], by simp, by simp, rfl, by decide⟩

/-- **The line `a/` of an include list misses the file `a` inside of the directory `a`**, which it
matches as a rule of an ignore list. -/
theorem include_misses_file_named_as_directory :
    ∃ r r', ofLine? ['/'] false ['a', '/'] = some (.path r) ∧
      ofLine? ['/'] true ['a', '/'] = some (.path r') ∧
      (Rule.path r).appliesAsDirectory ['/', 'a'] = true ∧
      (Rule.path r').appliesTo ⟨['/', 'a', '/', 'a'], false, none⟩ = false :=
  ⟨_, _, rfl, rfl, by decide, by decide⟩

end Names
end Rule
end PathFilter
