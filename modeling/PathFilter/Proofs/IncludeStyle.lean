import PathFilter.Proofs.IncludeOrder
import PathFilter.Proofs.NearestFile
import PathFilter.Proofs.PathRules

/-! # The style of an include list

That a source makes an include list is noted twice: in the list, by the place where the source is
given, and in each of its rules, by what the source says of itself.  A rule in the style of an
include list does more than one in the style of an ignore list: it applies to what lies inside of a
directory that its pattern matches (`Rule.ReachesInto`), and may hold a directory open that its
leading segments match (`Rule.LeadsInto`).  A source among the include sources that does not say
that it makes an include list gets a list whose rules do neither.

* What a rule does in one style and not in the other is just that
  (`Rule.appliesTo_inStyle_iff`, `Rule.mayMatchWithin_inStyle_iff`).
* **Where a list says the same in both styles is told by its last rule that applies, and by the
  directories that its rules hold open** (`RuleList.verdict_inStyle_iff`).
* **What a policy decides does not depend on the style of an include source wherever its list says
  the same in both of them** (`Policy.judge_in_either_style`).  Elsewhere it does
  (`Policy.style_of_lib_matters`).
-/

namespace PathFilter
open Pattern

/-! ## Rules -/

namespace Rule
variable {c : Candidate} {r : Rule} {allow : Bool}

/-- A rule in the style of an include list, or of an ignore list. -/
def inStyle (allow : Bool) : Rule → Rule
  | path r => path { r with allow }
  | interpreter r => interpreter r
  | unmatchable line negated => unmatchable line negated

/-- A candidate lies inside of a directory that the pattern of the rule matches, and is not matched
itself. -/
def ReachesInto (c : Candidate) : Rule → Prop
  | path r => ∃ rel, c.below? r.root = some rel ∧ ¬ r.pattern.Matches rel ∧
      ∃ m below, rel = m ++ '/' :: below ∧ r.pattern.Matches m
  | interpreter _ | unmatchable _ _ => False

/-- A candidate is a directory that leading segments of the pattern match, so that what the rule
matches may lie in it. -/
def LeadsInto (c : Candidate) : Rule → Prop
  | path r => c.isDir = true ∧ r.negated = false ∧ ∃ rel, c.below? r.root = some rel ∧
      r.pattern.anchored = true ∧ matchesLeading r.pattern.steps rel = true
  | interpreter _ | unmatchable _ _ => False

theorem negated_inStyle (allow : Bool) (r : Rule) :
    (r.inStyle allow).negated = r.negated := by
  cases r <;> rfl

theorem inStyle_inStyle (allow allow' : Bool) (r : Rule) :
    (r.inStyle allow).inStyle allow' = r.inStyle allow' := by
  cases r <;> rfl

/-- **A rule in the style of an include list applies to what it would apply to anyway, and to what
it reaches into.** -/
theorem appliesTo_inStyle_iff : (r.inStyle true).appliesTo c = true ↔
    (r.inStyle false).appliesTo c = true ∨ r.ReachesInto c := by
  cases r with
  | path r =>
    simp only [inStyle, appliesTo, ReachesInto, Option.any_eq_true, PathPattern.accepts_true_iff,
      PathPattern.accepts_false_iff]
    rw [← exists_or]
    exact exists_congr fun rel => and_or_left
  | interpreter r => exact (or_iff_left id).symm
  | unmatchable line negated => exact (or_iff_left id).symm

/-- **It may match something in what it could match something in anyway, and in what it leads
into.** -/
theorem mayMatchWithin_inStyle_iff : (r.inStyle true).mayMatchWithin c = true ↔
    (r.inStyle false).mayMatchWithin c = true ∨ r.LeadsInto c := by
  cases r with
  | path r =>
    simp only [inStyle, mayMatchWithin, LeadsInto, root?, negated, Option.any_some]
    cases c.below? r.root with
    | none => simp
    | some rel =>
      simp only [mayMatchBelow, PathPattern.mayMatchBelow, Option.any_some]
      cases c.isDir <;> cases r.negated <;> cases r.pattern.anchored <;> simp
  | interpreter r => exact (or_iff_left id).symm
  | unmatchable line negated => exact (or_iff_left id).symm

/-! ### Rules of a source -/

theorem ofPattern_inStyle (root line : Text) (l : Line) (allow allow' : Bool) :
    ofPattern root allow' line l = (ofPattern root allow line l).inStyle allow' := by
  cases l with
  | interpreter negated name =>
    rw [ofPattern, ofPattern]
    split <;> rfl
  | path negated body =>
    rw [ofPattern, ofPattern]
    cases PathPattern.ofBody body <;> rfl

theorem ofLine?_inStyle (root line : Text) (allow allow' : Bool) :
    ofLine? root allow' line = (ofLine? root allow line).map (inStyle allow') := by
  rw [ofLine?, ofLine?, Option.map_map]
  exact congrArg (Option.map · _) (funext fun l => ofPattern_inStyle _ line l allow allow')

theorem ofPathLine?_inStyle (homes : Homes) (root line : Text) (allow allow' : Bool) :
    ofPathLine? homes root allow' line =
      (ofPathLine? homes root allow line).map (inStyle allow') := by
  rw [ofPathLine?, ofPathLine?]
  split
  · exact ofLine?_inStyle root line allow allow'
  · dsimp only
    split
    · rfl
    · exact ofLine?_inStyle root _ allow allow'

end Rule

namespace ResolvedSource

theorem rule?_inStyle (homes : Homes) (s : ResolvedSource) (allow : Bool) (line : Text) :
    rule? homes { s with allow } line = (s.rule? homes line).map (Rule.inStyle allow) := by
  rw [rule?, rule?]
  cases s.format with
  | gitignore => exact Rule.ofLine?_inStyle s.root line s.allow allow
  | paths => exact Rule.ofPathLine?_inStyle homes s.root line s.allow allow

theorem rules_inStyle (h : Host) (s : ResolvedSource) (allow : Bool) :
    rules h { s with allow } = (s.rules h).map (List.map (Rule.inStyle allow)) := by
  show (s.lines h).map _ = ((s.lines h).map _).map _
  cases s.lines h with
  | error e => rfl
  | ok ls =>
    refine congrArg Except.ok ?_
    rw [List.map_filterMap]
    exact congrArg (List.filterMap · ls) (funext (rule?_inStyle h.homes s allow))

end ResolvedSource

namespace Source

theorem resolve_inStyle (h : Host) (root : Text) (s : Source) (allow : Bool) :
    resolve h root { s with allow } = (s.resolve h root).map fun t => { t with allow } := by
  rw [resolve, resolve]
  cases PatternFormat.ofSetting? s.format with
  | none => rfl
  | some format =>
    obtain ⟨origin, given, _, _⟩ := s
    cases origin with
    | lines ls => rfl
    | file path required => 
      dsimp only
      rw [apply_ite (Except.map _)]
      rfl

/-- **What a source says of its style shows in each of its rules, and nowhere else.** -/
theorem rules_inStyle (h : Host) (root : Text) (s : Source) (allow : Bool) :
    rules h root { s with allow } = (s.rules h root).map (List.map (Rule.inStyle allow)) := by
  rw [rules, rules, resolve_inStyle]
  cases s.resolve h root with
  | error e => rfl
  | ok t =>
    show (ResolvedSource.rules h { t with allow }).mapError _ = ((t.rules h).mapError _).map _
    rw [ResolvedSource.rules_inStyle]
    cases t.rules h <;> rfl

end Source

/-! ## Lists -/

namespace RuleList
variable {c : Candidate} {l : RuleList}

/-- The list with its rules in a style. -/
def inStyle (allow : Bool) (l : RuleList) : RuleList :=
  { l with rules := l.rules.map (Rule.inStyle allow) }

/-- An include list all of whose rules are in the style of one. -/
structure IsIncluding (l : RuleList) : Prop where
  allow : l.allow = true
  rules : ∀ r ∈ l.rules, r.inStyle true = r

/-- An include list says the same of a candidate, whatever the style of its rules.  If the last
rule that applies does so by reaching inside, the last one that applies without that says the same;
or there is none, the rule denies, and so does the list that holds nothing open.  If no rule applies
and one leads into the candidate, another one holds it open anyway. -/
structure AlikeAt (l : RuleList) (c : Candidate) : Prop where
  reaching : ∀ r ∈ lastApplying? c l.rules, r.ReachesInto c →
    ∀ r' ∈ lastApplying? c (l.inStyle false).rules, r'.negated = r.negated
  alone : ∀ r ∈ lastApplying? c l.rules, r.ReachesInto c →
    lastApplying? c (l.inStyle false).rules = none →
      r.negated = true ∧ ∀ r' ∈ (l.inStyle false).rules, r'.mayMatchWithin c = false
  leading : lastApplying? c l.rules = none → (∃ r ∈ l.rules, r.LeadsInto c) →
    ∃ r' ∈ (l.inStyle false).rules, r'.mayMatchWithin c = true

theorem opinion_eq_iff {r r' : Rule} :
    opinion true r' = opinion true r ↔ r'.negated = r.negated := by
  rw [opinion_true, opinion_true]
  cases r'.negated <;> cases r.negated <;> decide

theorem denied_eq_opinion_iff {r : Rule} : .denied = opinion true r ↔ r.negated = true := by
  rw [opinion_true]
  cases r.negated <;> decide

namespace IsIncluding
variable (hl : l.IsIncluding) {r : Rule}
include hl

theorem appliesTo_iff (hr : r ∈ l.rules) :
    r.appliesTo c = true ↔ (r.inStyle false).appliesTo c = true ∨ r.ReachesInto c := by
  rw [← Rule.appliesTo_inStyle_iff, hl.rules r hr]

theorem mayMatchWithin_iff (hr : r ∈ l.rules) :
    r.mayMatchWithin c = true ↔ (r.inStyle false).mayMatchWithin c = true ∨ r.LeadsInto c := by
  rw [← Rule.mayMatchWithin_inStyle_iff, hl.rules r hr]

/-- A rule that applies last, and does not reach inside, does so in both styles. -/
theorem lastApplying?_of_some (hr : lastApplying? c l.rules = some r)
    (hreach : ¬ r.ReachesInto c) :
    lastApplying? c (l.inStyle false).rules = some (r.inStyle false) := by
  obtain ⟨happlies, behind, before, heq, hbehind⟩ := List.find?_eq_some_iff_append.mp hr
  have hmem : ∀ r' ∈ l.rules.reverse, r' ∈ l.rules := fun r' => List.mem_reverse.mp
  rw [heq] at hmem
  have hr' := ((hl.appliesTo_iff (hmem r (by simp))).mp happlies).resolve_right hreach
  rw [lastApplying?, inStyle, ← List.map_reverse, heq, List.find?_eq_some_iff_append]
  refine ⟨hr', behind.map (Rule.inStyle false), before.map (Rule.inStyle false), by simp, ?_⟩
  -- a later rule that applied in the lesser style would apply in both
  rw [List.forall_mem_map]
  intro a ha
  rw [Bool.not_eq_true', Bool.eq_false_iff]
  intro hplain
  have happlies := (hl.appliesTo_iff (hmem a (List.mem_append_left _ ha))).mpr (.inl hplain)
  simpa [happlies] using hbehind a ha

theorem lastApplying?_of_none (hnone : lastApplying? c l.rules = none) :
    lastApplying? c (l.inStyle false).rules = none := by
  rw [lastApplying?, List.find?_eq_none] at hnone ⊢
  simp only [inStyle, List.mem_reverse, List.forall_mem_map] at hnone ⊢
  exact fun r hr hplain => hnone r hr ((hl.appliesTo_iff hr).mpr (.inl hplain))

/-- What a list holds open it does so in both styles, or one of its rules leads there. -/
theorem any_mayMatchWithin_iff : l.rules.any (·.mayMatchWithin c) = true ↔
    (l.inStyle false).rules.any (·.mayMatchWithin c) = true ∨ ∃ r ∈ l.rules, r.LeadsInto c := by
  simp only [inStyle, List.any_map, List.any_eq_true, Function.comp_apply]
  rw [← exists_or]
  refine exists_congr fun r => ?_
  rw [← and_or_left]
  exact and_congr_right fun hr => hl.mayMatchWithin_iff hr

/-- Where no rule applies, what the list says is the same if nothing is held open that would not be
held open anyway. -/
theorem verdict_inStyle_iff_of_none (hnone : lastApplying? c l.rules = none) :
    (l.inStyle false).verdict c = l.verdict c ↔ l.AlikeAt c := by
  have hempty : (l.inStyle false).rules.isEmpty = l.rules.isEmpty := by simp [inStyle]
  have hallow : (l.inStyle false).allow = true := hl.allow
  have hany := hl.any_mayMatchWithin_iff (c := c)
  have halike : l.AlikeAt c ↔ ((∃ r ∈ l.rules, r.LeadsInto c) →
      (l.inStyle false).rules.any (·.mayMatchWithin c) = true) := by
    rw [List.any_eq_true]
    refine ⟨fun h => h.leading hnone, fun h => ⟨fun r hr => ?_, fun r hr => ?_, fun _ => h⟩⟩
    · cases hnone.symm.trans hr
    · cases hnone.symm.trans hr
  rw [verdict_eq, verdict_eq l, hallow, hl.allow, hnone, hl.lastApplying?_of_none hnone, hempty,
    halike]
  cases hplain : (l.inStyle false).rules.any (·.mayMatchWithin c) with
  | true => simp [hany.mpr (.inl hplain)]
  | false =>
    -- now the list holds open only what one of its rules leads into
    rw [hplain] at hany
    by_cases hleads : ∃ r ∈ l.rules, r.LeadsInto c
    · have hne : l.rules.isEmpty = false := by
        obtain ⟨r, hr, -⟩ := hleads
        exact List.isEmpty_eq_false_iff.mpr (List.ne_nil_of_mem hr)
      simp [hany.mpr (.inr hleads), hne, hleads]
    · have hshut : l.rules.any (·.mayMatchWithin c) = false :=
        Bool.eq_false_iff.mpr fun h => (hany.mp h).elim Bool.false_ne_true hleads
      simp [hshut, hleads]

/-- Where the last rule that applies reaches inside, what the list says is the same if the list
would come to the same opinion anyway. -/
theorem verdict_inStyle_iff_of_reachesInto (hr : lastApplying? c l.rules = some r)
    (hreach : r.ReachesInto c) : (l.inStyle false).verdict c = l.verdict c ↔ l.AlikeAt c := by
  have hne : (l.inStyle false).rules.isEmpty = false := by
    have hmem : r ∈ l.rules := List.mem_reverse.mp (List.mem_of_find?_eq_some hr)
    simpa [inStyle] using List.ne_nil_of_mem hmem
  have hallow : (l.inStyle false).allow = true := hl.allow
  have hleading : lastApplying? c l.rules ≠ none := fun hnone => by cases hr.symm.trans hnone
  rw [verdict_eq, verdict_eq l, hallow, hl.allow, hr, hne]
  cases hr' : lastApplying? c (l.inStyle false).rules with
  | some r' =>
    have halike : l.AlikeAt c ↔ r'.negated = r.negated := by
      refine ⟨fun h => h.reaching r hr hreach r' hr', fun h => ⟨?_, ?_, fun hnone => ?_⟩⟩
      · rintro _ hlast - _ hlast'
        cases hr.symm.trans hlast
        cases hr'.symm.trans hlast'
        exact h
      · rintro _ - - hnone
        cases hr'.symm.trans hnone
      · exact absurd hnone hleading
    rw [halike]
    exact opinion_eq_iff
  | none =>
    have halike : l.AlikeAt c ↔
        r.negated = true ∧ (l.inStyle false).rules.any (·.mayMatchWithin c) = false := by
      simp only [List.any_eq_false, Bool.not_eq_true]
      refine ⟨fun h => h.alone r hr hreach hr', fun h => ⟨?_, ?_, fun hnone => ?_⟩⟩
      · rintro _ - - r' hlast'
        cases hr'.symm.trans hlast'
      · rintro _ hlast - -
        cases hr.symm.trans hlast
        exact h
      · exact absurd hnone hleading
    rw [halike, Option.elim_none, Option.elim_some, Bool.not_true, Bool.false_or, Bool.false_or]
    cases (l.inStyle false).rules.any (·.mayMatchWithin c) with
    | true => exact iff_of_false (opinion_ne_noOpinion true r).symm nofun
    | false => exact denied_eq_opinion_iff.trans (and_iff_left rfl).symm

/-- **An include list says the same in both styles exactly where its rules are alike.** -/
theorem verdict_inStyle_iff : (l.inStyle false).verdict c = l.verdict c ↔ l.AlikeAt c := by
  cases hr : lastApplying? c l.rules with
  | none => exact hl.verdict_inStyle_iff_of_none hr
  | some r =>
    by_cases hreach : r.ReachesInto c
    · exact hl.verdict_inStyle_iff_of_reachesInto hr hreach
    · have hallow : (l.inStyle false).allow = true := hl.allow
      have hsame : ∀ r' ∈ lastApplying? c l.rules, ¬ r'.ReachesInto c := by
        intro r' hr'
        cases hr.symm.trans hr'
        exact hreach
      rw [verdict_eq, verdict_eq l, hallow, hl.allow, hr, hl.lastApplying?_of_some hr hreach]
      refine iff_of_true (by simp [opinion, Rule.negated_inStyle])
        ⟨fun r' hr' h => absurd h (hsame r' hr'), fun r' hr' h => absurd h (hsame r' hr'), ?_⟩
      exact fun hnone => by cases hr.symm.trans hnone

end IsIncluding
end RuleList

/-- A list may be replaced by one that says the same. -/
theorem Precedence.allows_replace (p : Precedence) {c : Candidate} {l l' : RuleList}
    (hallow : l'.allow = l.allow) (hverdict : l'.verdict c = l.verdict c)
    (before behind : List RuleList) :
    p.allows (before ++ l' :: behind) c = p.allows (before ++ l :: behind) c := by
  cases p with
  | allAllow => simp [allows, hverdict]
  | lastOpinion =>
    have hveto : Vetoed (before ++ l' :: behind) c ↔ Vetoed (before ++ l :: behind) c := by
      simp [Vetoed, or_and_right, exists_or, hallow, hverdict]
    have hopinions : opinions c (before ++ l' :: behind) = opinions c (before ++ l :: behind) := by
      simp [opinions, hverdict]
    rw [Bool.eq_iff_iff, lastOpinion_allows_iff, lastOpinion_allows_iff, hveto, hopinions]

/-! ## Policies -/

/-- The plan with given include sources, one of them among others. -/
def PolicyPlan.withInclude (plan : PolicyPlan) (before : List Source) (s : Source)
    (behind : List Source) : PolicyPlan :=
  { plan with including := before ++ s :: behind }

namespace Policy
variable {h : Host} {plan : PolicyPlan} {p : Policy} {s : Source} {ss ss' : List Source}

theorem listOf_inStyle (h : Host) (root : Text) (role : Bool) (s : Source) (allow : Bool) :
    listOf h root role { s with allow } = (listOf h root role s).map (RuleList.inStyle allow) := by
  rw [listOf, listOf, Source.rules_inStyle]
  cases s.rules h root <;> rfl

theorem isIncluding_of_listOf {root : Text} {l : RuleList}
    (hl : listOf h root true { s with allow := true } = .ok l) : l.IsIncluding := by
  rw [listOf_inStyle] at hl
  obtain ⟨l', hl', rfl⟩ := map_eq_ok_iff.mp hl
  obtain ⟨rules, -, rfl⟩ := map_eq_ok_iff.mp hl'
  refine ⟨rfl, ?_⟩
  simp only [RuleList.inStyle, List.forall_mem_map]
  exact fun r _ => Rule.inStyle_inStyle true true r

/-- A source that says otherwise of its style makes a list in that style, and nothing else
changes. -/
theorem exists_create_inStyle (hp : create h (plan.withInclude ss s ss') = .ok p) (allow : Bool) :
    ∃ before l behind, listOf h (Path.slashed plan.root) true s = .ok l ∧
      p.lists = before ++ l :: behind ∧
      create h (plan.withInclude ss { s with allow } ss') =
        .ok { p with lists := before ++ l.inStyle allow :: behind } := by
  obtain ⟨hierarchy, ignoring, including, further, hhierarchy, hmakes, rfl⟩ := exists_of_create hp
  obtain ⟨before, rest, hbefore, hrest, rfl⟩ := mapM_append_eq_ok_iff.mp hmakes.including
  obtain ⟨l, behind, hl, hbehind, rfl⟩ := mapM_cons_eq_ok_iff.mp hrest
  have hl' : listOf h (Path.slashed plan.root) true { s with allow } = .ok (l.inStyle allow) := by
    rw [listOf_inStyle]
    exact congrArg (Except.map _) hl
  have hincluding := mapM_append_eq_ok_iff.mpr ⟨before, l.inStyle allow :: behind, hbefore,
    mapM_cons_eq_ok_iff.mpr ⟨l.inStyle allow, behind, hl', hbehind, rfl⟩, rfl⟩
  refine ⟨ignoring ++ before, l, behind ++ further, hl, by simp, ?_⟩
  have hcreate : create h (plan.withInclude ss { s with allow } ss') = .ok _ :=
    create_eq_ok hhierarchy ⟨hmakes.ignoring, hincluding, hmakes.further⟩
  rw [hcreate]
  simp [PolicyPlan.withInclude]

/-- **What is decided does not depend on what an include source says of its style, wherever the
rules of its list are alike.**  The policy can be made either way or not at all.  The lists that the
source makes have the same rules, in the one style and in the other, and say the same of a candidate
exactly where the rules are alike; and after the same loads the two policies give the same answer
about each such candidate, and about each path to which only such candidates lead. -/
theorem judge_in_either_style (h : Host) (plan : PolicyPlan) (ss : List Source) (s : Source)
    (ss' : List Source) :
    ((∃ p, create h (plan.withInclude ss { s with allow := true } ss') = .ok p) ↔
      ∃ p', create h (plan.withInclude ss { s with allow := false } ss') = .ok p') ∧
    ∀ p p', create h (plan.withInclude ss { s with allow := true } ss') = .ok p →
      create h (plan.withInclude ss { s with allow := false } ss') = .ok p' →
      ∃ l, listOf h (Path.slashed plan.root) true { s with allow := true } = .ok l ∧
        listOf h (Path.slashed plan.root) true { s with allow := false } = .ok (l.inStyle false) ∧
        (∀ c, (l.inStyle false).verdict c = l.verdict c ↔ l.AlikeAt c) ∧
        ∀ loads : List Load,
          (∀ c, l.AlikeAt c → (p'.after h loads).allowsAlone c = (p.after h loads).allowsAlone c) ∧
          ∀ path isDir firstLine, (∀ c ∈ p.candidates path isDir firstLine, l.AlikeAt c) →
            ((p'.after h loads).judge h path isDir firstLine).2 =
              ((p.after h loads).judge h path isDir firstLine).2 := by
  refine ⟨⟨fun ⟨p, hp⟩ => ?_, fun ⟨p', hp'⟩ => ?_⟩, fun p p' hp hp' => ?_⟩
  · obtain ⟨_, _, _, -, -, hp'⟩ := exists_create_inStyle hp false
    exact ⟨_, hp'⟩
  · obtain ⟨_, _, _, -, -, hp⟩ := exists_create_inStyle hp' true
    exact ⟨_, hp⟩
  obtain ⟨before, l, behind, hl, hlists, hcreate⟩ := exists_create_inStyle hp false
  obtain rfl := Except.ok.inj (hp'.symm.trans hcreate)
  have hverdict : ∀ c, (l.inStyle false).verdict c = l.verdict c ↔ l.AlikeAt c :=
    fun c => (isIncluding_of_listOf hl).verdict_inStyle_iff
  have hplain := listOf_inStyle h (Path.slashed plan.root) true { s with allow := true } false
  rw [hl] at hplain
  refine ⟨l, hl, hplain, hverdict, fun loads => judge_after_with_lists (fun front c hc => ?_) loads⟩
  have hallow : (l.inStyle false).allow = l.allow := rfl
  rw [hlists, ← List.append_assoc, ← List.append_assoc]
  exact p.precedence.allows_replace hallow ((hverdict c).mpr hc) (front ++ before) behind

/-- A plan without ignore files for the directory `/r`. -/
def plainPlan : PolicyPlan := { root := "/r".toList, ignoreFiles := false }

/-- Files by their ending, and all that is in the directory `lib`. -/
def rubySource : Source := { origin := .ofTexts ["*.rb".toList, "lib/".toList] }

def libSource : Source := { origin := .ofTexts ["lib/".toList] }

/-- What leads to the file `lib/a.rb`. -/
def wayToRuby : List Candidate :=
  [⟨"/r/lib".toList, true, none⟩, ⟨"/r/lib/a.rb".toList, false, none⟩]

/-- A file in the directory `lib` is included in either style: the last rule that applies to it
reaches into the directory in one of them only, but there is a rule for its ending in both. -/
theorem judge_rubySource : ∃ p p',
    create bareHost (plainPlan.withInclude [] { rubySource with allow := true } []) = .ok p ∧
      create bareHost (plainPlan.withInclude [] { rubySource with allow := false } []) = .ok p' ∧
      (∃ l, listOf bareHost (Path.slashed plainPlan.root) true { rubySource with allow := true } =
        .ok l ∧ (∀ c ∈ p.candidates "lib/a.rb".toList false none, l.AlikeAt c) ∧
          ∃ r ∈ RuleList.lastApplying? ⟨"/r/lib/a.rb".toList, false, none⟩ l.rules,
            r.ReachesInto ⟨"/r/lib/a.rb".toList, false, none⟩) ∧
      (p'.judge bareHost "lib/a.rb".toList false none).2 = .ok true := by
  let c : Candidate := ⟨"/r/lib/a.rb".toList, false, none⟩
  obtain ⟨p, hp, hfacts⟩ : ∃ p,
      create bareHost (plainPlan.withInclude [] { rubySource with allow := true } []) = .ok p ∧
      decide ((p.judge bareHost "lib/a.rb".toList false none).2 = .ok true ∧
        p.candidates "lib/a.rb".toList false none = wayToRuby) = true :=
    exists_eq_ok_of_any (by decide +kernel)
  obtain ⟨hallowed, hcandidates⟩ := of_decide_eq_true hfacts
  obtain ⟨l, hl, hsame⟩ : ∃ l,
      listOf bareHost (Path.slashed plainPlan.root) true { rubySource with allow := true } = .ok l ∧
      decide ((∀ c ∈ wayToRuby, (l.inStyle false).verdict c = l.verdict c) ∧
        ∃ r ∈ RuleList.lastApplying? c l.rules, (r.inStyle false).appliesTo c = false) = true :=
    exists_eq_ok_of_any (by decide +kernel)
  obtain ⟨hsame, r, hr, hplain⟩ := of_decide_eq_true hsame
  have hmem : r ∈ l.rules := List.mem_reverse.mp (List.mem_of_find?_eq_some hr)
  have hreach : r.ReachesInto c :=
    (((isIncluding_of_listOf hl).appliesTo_iff hmem).mp (List.find?_some hr)).resolve_left
      (Bool.eq_false_iff.mp hplain)
  obtain ⟨hboth, hdecide⟩ := judge_in_either_style bareHost plainPlan [] rubySource []
  obtain ⟨p', hp'⟩ := hboth.mp ⟨p, hp⟩
  obtain ⟨l', hl', -, hverdict, halike⟩ := hdecide p p' hp hp'
  cases hl.symm.trans hl'
  have hall : ∀ c ∈ p.candidates "lib/a.rb".toList false none, l.AlikeAt c := by
    rw [hcandidates]
    exact fun c hc => (hverdict c).mp (hsame c hc)
  exact ⟨p, p', hp, hp', ⟨l, hl, hall, r, hr, hreach⟩,
    ((halike []).2 _ false none hall).trans hallowed⟩

/-- **With the directory `lib` included, the file `lib/a/b.rb` is allowed if the source says that it
makes an include list, and denied if it leaves that to the place where it is given.** -/
theorem style_of_lib_matters : ∃ p p',
    create bareHost (plainPlan.withInclude [] { libSource with allow := true } []) = .ok p ∧
      create bareHost (plainPlan.withInclude [] { libSource with allow := false } []) = .ok p' ∧
      (p.judge bareHost "lib/a/b.rb".toList false none).2 = .ok true ∧
      (p'.judge bareHost "lib/a/b.rb".toList false none).2 = .ok false := by
  obtain ⟨p, hp, hallowed⟩ : ∃ p,
      create bareHost (plainPlan.withInclude [] { libSource with allow := true } []) = .ok p ∧
      decide ((p.judge bareHost "lib/a/b.rb".toList false none).2 = .ok true) = true :=
    exists_eq_ok_of_any (by decide +kernel)
  obtain ⟨p', hp', hdenied⟩ : ∃ p',
      create bareHost (plainPlan.withInclude [] { libSource with allow := false } []) = .ok p' ∧
      decide ((p'.judge bareHost "lib/a/b.rb".toList false none).2 = .ok false) = true :=
    exists_eq_ok_of_any (by decide +kernel)
  exact ⟨p, p', hp, hp', of_decide_eq_true hallowed, of_decide_eq_true hdenied⟩

end Policy
end PathFilter
