import Mathlib.Data.List.Basic
import PathFilter.Proofs.FilterState

/-! # What one more include list changes

The last list with an opinion of a path decides about it, but what an include list denies stays
denied.  So an include list narrows what the other include lists allow.  It may still allow more
than there was before: a directory that an ignore list denies, and that the other include lists
have no opinion of since something in it may match, is allowed if the new list matches it
(`RuleList.Lifts`).

* What the lists say together is the last one of their opinions, unless one of them vetoes it
  (`Precedence.lastOpinion_allows_iff`).
* **Of what is allowed with a list among others, all is allowed without it but what the list
  lifts** (`Precedence.allows_without_iff`).
* **A file that is allowed with one more include list is allowed without it exactly if the list
  lifts none of the directories above the file** (`Policy.judge_including_iff`); there are lists
  that do (`Policy.include_list_allows_more`).
-/

namespace PathFilter

/-! ## Lists in a row -/

/-- An include list with a rule has an opinion of everything but directories. -/
theorem RuleList.verdict_ne_noOpinion {l : RuleList} {c : Candidate} (hallow : l.allow = true)
    (hrules : l.rules ≠ []) (hfile : c.isDir = false) : l.verdict c ≠ .noOpinion := by
  have hwithin : l.rules.any (·.mayMatchWithin c) = false := by
    rw [List.any_eq_false]
    intro r _
    simp [Rule.mayMatchWithin, hfile]
  rw [verdict]
  split
  · rw [if_neg (by simp [hallow, hrules, hwithin])]
    exact Verdict.noConfusion
  · assumption

/-- A list lifts a denial: the lists before it do not allow a candidate, it does, and the lists
behind it have no opinion. -/
structure RuleList.Lifts (l : RuleList) (before behind : List RuleList) (c : Candidate) : Prop where
  denied : Precedence.lastOpinion.allows before c = false
  allowed : l.verdict c = .allowed
  silent : ∀ l' ∈ behind, l'.verdict c = .noOpinion

namespace Precedence
variable {c : Candidate} {l : RuleList} {ls before behind : List RuleList}

/-- An include list denies a candidate. -/
def Vetoed (ls : List RuleList) (c : Candidate) : Prop :=
  ∃ l ∈ ls, l.allow = true ∧ l.verdict c = .denied

/-- The opinions that lists have of a candidate, in their order. -/
def opinions (c : Candidate) (ls : List RuleList) : List Verdict :=
  (ls.map (·.verdict c)).filter (· ≠ .noOpinion)

theorem opinions_append (c : Candidate) (ls ls' : List RuleList) :
    opinions c (ls ++ ls') = opinions c ls ++ opinions c ls' := by
  rw [opinions, List.map_append, List.filter_append, ← opinions, ← opinions]

theorem opinions_eq_nil_iff : opinions c ls = [] ↔ ∀ l ∈ ls, l.verdict c = .noOpinion := by
  simp [opinions]

theorem mem_opinions {v : Verdict} (hv : v ∈ opinions c ls) : ∃ l ∈ ls, l.verdict c = v := by
  obtain ⟨hmem, -⟩ := List.mem_filter.mp hv
  exact List.mem_map.mp hmem

/-- Lists deny a candidate by the veto of an include list or by their last opinion. -/
theorem lastOf_eq_denied_iff {v : Verdict} : lastOf c v ls = .denied ↔
    Vetoed ls c ∨ (opinions c ls).getLast?.getD v = .denied := by
  induction ls generalizing v with
  | nil => simp [lastOf, Vetoed, opinions]
  | cons l ls ih =>
    have hveto : Vetoed (l :: ls) c ↔ (l.allow = true ∧ l.verdict c = .denied) ∨ Vetoed ls c := by
      simp [Vetoed]
    rw [lastOf, hveto]
    cases hl : l.verdict c with
    | noOpinion => simp [ih, opinions, hl]
    | allowed => simp [ih, opinions, hl, List.getLast?_cons]
    | denied =>
      cases hallow : l.allow with
      | true => simp
      | false => simp [ih, opinions, hl, List.getLast?_cons]

/-- **Lists allow a candidate if none of them vetoes it and their last opinion is no denial.** -/
theorem lastOpinion_allows_iff : lastOpinion.allows ls c = true ↔
    ¬ Vetoed ls c ∧ (opinions c ls).getLast? ≠ some .denied := by
  rw [allows, decide_eq_true_eq, Ne, lastOf_eq_denied_iff, not_or]
  apply and_congr_right
  intro _
  cases (opinions c ls).getLast? <;> simp

theorem Vetoed.of_subset {ls' : List RuleList} (h : Vetoed ls c) (hle : ls ⊆ ls') :
    Vetoed ls' c := by
  obtain ⟨l, hl, hdenied⟩ := h
  exact ⟨l, hle hl, hdenied⟩

/-- **What is allowed with a list is allowed without it, unless the list lifts a denial.** -/
theorem allows_without_iff (h : lastOpinion.allows (before ++ l :: behind) c = true) :
    lastOpinion.allows (before ++ behind) c = true ↔ ¬ l.Lifts before behind c := by
  obtain ⟨hveto, hlast⟩ := lastOpinion_allows_iff.mp h
  have hwithout : ¬ Vetoed (before ++ behind) c :=
    fun hv => hveto (hv.of_subset (by simp))
  have hbefore : ¬ Vetoed before c := fun hv => hwithout (hv.of_subset (by simp))
  rw [lastOpinion_allows_iff, and_iff_right hwithout, opinions_append]
  rw [opinions_append, ← List.singleton_append, opinions_append] at hlast
  by_cases hsilent : opinions c behind = []
  · rw [hsilent, List.append_nil] at hlast ⊢
    have hdenied : lastOpinion.allows before c = false ↔
        (opinions c before).getLast? = some .denied := by
      rw [Bool.eq_false_iff, Ne, lastOpinion_allows_iff, and_iff_right hbefore, Ne,
        Classical.not_not]
    rw [Ne, ← hdenied]
    cases hl : l.verdict c with
    | noOpinion =>
      have hnone : opinions c [l] = [] := by simp [opinions, hl]
      rw [hnone, List.append_nil, Ne, ← hdenied] at hlast
      exact iff_of_true hlast fun hlifts => Verdict.noConfusion (hl.symm.trans hlifts.allowed)
    | denied =>
      have hone : opinions c [l] = [.denied] := by simp [opinions, hl]
      rw [hone, List.getLast?_concat] at hlast
      exact absurd rfl hlast
    | allowed =>
      constructor
      · exact fun hallows hlifts => hallows hlifts.denied
      · exact fun hnot hdenies => hnot ⟨hdenies, hl, opinions_eq_nil_iff.mp hsilent⟩
  · have hnot : ¬ l.Lifts before behind c :=
      fun hlifts => hsilent (opinions_eq_nil_iff.mpr hlifts.silent)
    rw [List.getLast?_append_of_ne_nil _ hsilent]
    rw [← List.append_assoc, List.getLast?_append_of_ne_nil _ hsilent] at hlast
    exact iff_of_true hlast hnot

/-- Include lists, one of which has an opinion, allow what none of the lists vetoes. -/
theorem allows_append_of_mem (hallow : ∀ l ∈ ls, l.allow = true) (hveto : ¬ Vetoed (before ++ ls) c)
    (hl : l ∈ ls) (hopinion : l.verdict c ≠ .noOpinion) :
    lastOpinion.allows (before ++ ls) c = true := by
  have hne : opinions c ls ≠ [] := fun hnil => hopinion (opinions_eq_nil_iff.mp hnil l hl)
  rw [lastOpinion_allows_iff, opinions_append, List.getLast?_append_of_ne_nil _ hne]
  refine ⟨hveto, fun hlast => ?_⟩
  obtain ⟨l', hl', hdenied⟩ := mem_opinions (List.mem_of_getLast? hlast)
  exact hveto ⟨l', List.mem_append_right before hl', hallow l' hl', hdenied⟩

end Precedence

/-! ## Policies -/

namespace Policy
variable {h : Host} {plan : PolicyPlan} {p p' : Policy} {s : Source} {path : Text}

/-- The directories above a path, as candidates. -/
def above (p : Policy) (path : Text) : List Candidate :=
  (Path.ancestors path).map fun dir =>
    p.candidate (Text.dropTrailing (· = '/') dir) true none

theorem allows_iff {isDir : Bool} {firstLine : Option Text} :
    p.allows path isDir firstLine = true ↔
      (∀ c ∈ p.above path, p.allowsAlone c = true) ∧
        p.allowsAlone (p.candidate path isDir firstLine) = true := by
  rw [allows, Bool.and_eq_true, allowsAbove, List.all_eq_true, above, List.forall_mem_map]

/-- Loading does not depend on the lists of the caller, and leaves them as they are. -/
theorem loadAbove_lists (h : Host) (path : Text) (p : Policy) (ls : List RuleList) :
    loadAbove h path { p with lists := ls } =
      ({ (p.loadAbove h path).1 with lists := ls }, (p.loadAbove h path).2) := by
  obtain ⟨root, precedence, hierarchy, lists⟩ := p
  cases hierarchy <;> rfl

theorem judge_eq_ok_true_iff {isDir : Bool} {firstLine : Option Text} :
    (p.judge h path isDir firstLine).2 = .ok true ↔ (p.loadAbove h path).2 = .ok () ∧
      (p.loadAbove h path).1.allows path isDir firstLine = true := by
  rw [judge]
  cases hload : p.loadAbove h path with
  | mk q result =>
    cases result with
    | error e => exact iff_of_false nofun nofun
    | ok _ => simp [Except.map]

theorem loadAbove_precedence (h : Host) (path : Text) (p : Policy) :
    (p.loadAbove h path).1.precedence = p.precedence := by
  obtain ⟨root, precedence, hierarchy, lists⟩ := p
  cases hierarchy <;> rfl

/-- Once the ignore files above a file are loaded: if the file is allowed with one more include
list, it is allowed without it exactly if the list lifts no directory above it. -/
theorem allows_without_include_iff {q : Policy} {ignoring including further : List RuleList}
    {l : RuleList} {firstLine : Option Text} (hmode : q.precedence = .lastOpinion)
    (hallow : ∀ i ∈ including, i.allow = true) (hrules : ∃ i ∈ including, i.rules ≠ [])
    (hallowed : allows { q with lists := ignoring ++ (including ++ [l]) ++ further }
      path false firstLine = true) :
    allows { q with lists := ignoring ++ including ++ further } path false firstLine = true ↔
      ∀ c ∈ q.above path,
        ¬ l.Lifts { q with lists := ignoring ++ including }.allLists further c := by
  have hwith : ∀ c, allowsAlone { q with lists := ignoring ++ (including ++ [l]) ++ further } c =
      Precedence.lastOpinion.allows
        ({ q with lists := ignoring ++ including }.allLists ++ l :: further) c := by
    intro c
    rw [allowsAlone, hmode]
    simp [allLists]
  have hwithout : ∀ c, allowsAlone { q with lists := ignoring ++ including ++ further } c =
      Precedence.lastOpinion.allows
        ({ q with lists := ignoring ++ including }.allLists ++ further) c := by
    intro c
    rw [allowsAlone, hmode]
    simp [allLists]
  obtain ⟨habove, hself⟩ := allows_iff.mp hallowed
  rw [hwith] at hself
  rw [allows_iff]
  constructor
  · rintro ⟨habove', -⟩ c hc
    have hc' := habove' c hc
    rw [hwithout] at hc'
    exact (Precedence.allows_without_iff (hwith c ▸ habove c hc)).mp hc'
  · intro hnot
    refine ⟨fun c hc => ?_, ?_⟩
    · rw [hwithout]
      exact (Precedence.allows_without_iff (hwith c ▸ habove c hc)).mpr (hnot c hc)
    · -- the include list with a rule has an opinion of the file itself
      rw [hwithout]
      refine (Precedence.allows_without_iff hself).mpr fun hlifts => ?_
      obtain ⟨i, hi, hne⟩ := hrules
      obtain ⟨hveto, -⟩ := Precedence.lastOpinion_allows_iff.mp hself
      have hdenied := hlifts.denied
      rw [allLists, ← List.append_assoc] at hdenied hveto
      rw [Precedence.allows_append_of_mem hallow
        (fun hv => hveto (hv.of_subset (List.subset_append_left _ _))) hi
        (RuleList.verdict_ne_noOpinion (hallow i hi) hne rfl)] at hdenied
      cases hdenied

/-- One more include source makes one more list, and changes nothing else. -/
theorem exists_of_create_including (hp : create h plan = .ok p)
    (hp' : create h { plan with including := plan.including ++ [s] } = .ok p') :
    ∃ ignoring including l further, plan.Makes h ignoring including further ∧
      listOf h (Path.slashed plan.root) true s = .ok l ∧ p.precedence = plan.precedence ∧
      p.lists = ignoring ++ including ++ further ∧
      p' = { p with lists := ignoring ++ (including ++ [l]) ++ further } := by
  obtain ⟨hierarchy, ignoring, including, further, hhierarchy, hmakes, rfl⟩ := exists_of_create hp
  obtain ⟨hierarchy', ignoring', including', further', hhierarchy', hmakes', rfl⟩ :=
    exists_of_create hp'
  cases hhierarchy.symm.trans hhierarchy'
  cases hmakes.ignoring.symm.trans hmakes'.ignoring
  cases hmakes.further.symm.trans hmakes'.further
  obtain ⟨including₁, lists, hincluding₁, hlists, rfl⟩ :=
    mapM_append_eq_ok_iff.mp hmakes'.including
  cases hmakes.including.symm.trans hincluding₁
  obtain ⟨l, lists, hl, hnone, rfl⟩ := mapM_cons_eq_ok_iff.mp hlists
  obtain rfl := mapM_nil_eq_ok_iff.mp hnone
  exact ⟨ignoring, including, l, further, hmakes, hl, rfl, rfl, rfl⟩

/-- **A file that is allowed with one more include list is allowed without it exactly if the list
lifts the denial of no directory above the file.**  Let the last opinion decide, and let one of the
other include lists have a rule. -/
theorem judge_including_iff (hp : create h plan = .ok p)
    (hp' : create h { plan with including := plan.including ++ [s] } = .ok p')
    (hmode : plan.precedence = .lastOpinion)
    (hrules : ∃ s' ∈ plan.including, ∃ l,
      listOf h (Path.slashed plan.root) true s' = .ok l ∧ l.rules ≠ []) :
    ∃ ignoring including l further, plan.Makes h ignoring including further ∧
      listOf h (Path.slashed plan.root) true s = .ok l ∧
      ∀ path firstLine, (p'.judge h path false firstLine).2 = .ok true →
        let q := (p.loadAbove h path).1
        ((p.judge h path false firstLine).2 = .ok true ↔ ∀ c ∈ q.above path,
          ¬ l.Lifts { q with lists := ignoring ++ including }.allLists further c) := by
  obtain ⟨ignoring, including, l, further, hmakes, hl, hprecedence, hlists, rfl⟩ :=
    exists_of_create_including hp hp'
  refine ⟨ignoring, including, l, further, hmakes, hl, ?_⟩
  intro path firstLine hallowed q
  have hallow : ∀ i ∈ including, i.allow = true := by
    intro i hi
    obtain ⟨s', -, hs'⟩ := exists_of_mem_mapM hmakes.including hi
    obtain ⟨rules, -, rfl⟩ := map_eq_ok_iff.mp hs'
    rfl
  have hsome : ∃ i ∈ including, i.rules ≠ [] := by
    obtain ⟨s', hs', i, hi, hne⟩ := hrules
    exact ⟨i, mem_of_mapM hmakes.including hs' hi, hne⟩
  have hmode' : q.precedence = .lastOpinion := by
    rw [loadAbove_precedence, hprecedence, hmode]
  have hq : q = { q with lists := ignoring ++ including ++ further } := by
    rw [← hlists]
    exact congrArg Prod.fst (loadAbove_lists h path p p.lists)
  rw [judge_eq_ok_true_iff, loadAbove_lists] at hallowed
  obtain ⟨hloaded, hallowed⟩ := hallowed
  have hiff := allows_without_include_iff hmode' hallow hsome hallowed
  rw [← hq] at hiff
  rw [judge_eq_ok_true_iff, and_iff_right hloaded]
  exact hiff

/-- Surroundings without files. -/
def bareHost : Host :=
  { files := .empty, cwd := ['/'], homes := ⟨none, []⟩, configHome := none }

/-- A plan that ignores the directory `build`, and includes files by their ending. -/
def endingPlan : PolicyPlan :=
  { root := "/r".toList
    ignoreFiles := false
    ignoring := [{ origin := .ofTexts ["build/".toList] }]
    including := [{ origin := .ofTexts ["*.rb".toList], allow := true }] }

/-- The source of an include list for the directory `build`. -/
def buildSource : Source :=
  { origin := .ofTexts ["build/".toList], allow := true }

theorem exists_rule_of_endingPlan : ∃ s ∈ endingPlan.including, ∃ l,
    listOf bareHost (Path.slashed endingPlan.root) true s = .ok l ∧ l.rules ≠ [] := by
  obtain ⟨l, hl, hne⟩ : ∃ l, listOf bareHost (Path.slashed endingPlan.root) true
      { origin := .ofTexts ["*.rb".toList], allow := true } = .ok l ∧
        decide (l.rules ≠ []) = true :=
    exists_eq_ok_of_any (by decide +kernel)
  exact ⟨_, List.mem_singleton_self _, l, hl, of_decide_eq_true hne⟩

/-- The include list for `build` lifts the denial of the directory above `build/a.rb`. -/
theorem lifts_above_build : ∃ p ignoring including l further,
    create bareHost endingPlan = .ok p ∧
      endingPlan.Makes bareHost ignoring including further ∧
      listOf bareHost (Path.slashed endingPlan.root) true buildSource = .ok l ∧
      let q := (p.loadAbove bareHost "build/a.rb".toList).1
      ∃ c ∈ q.above "build/a.rb".toList,
        l.Lifts { q with lists := ignoring ++ including }.allLists further c := by
  obtain ⟨p, hp, hdenied⟩ : ∃ p, create bareHost endingPlan = .ok p ∧
      decide ((p.judge bareHost "build/a.rb".toList false none).2 ≠ .ok true) = true :=
    exists_eq_ok_of_any (by decide +kernel)
  obtain ⟨p', hp', hallowed⟩ : ∃ p', create bareHost
      { endingPlan with including := endingPlan.including ++ [buildSource] } = .ok p' ∧
      decide ((p'.judge bareHost "build/a.rb".toList false none).2 = .ok true) = true :=
    exists_eq_ok_of_any (by decide +kernel)
  obtain ⟨ignoring, including, l, further, hmakes, hl, hiff⟩ :=
    judge_including_iff hp hp' rfl exists_rule_of_endingPlan
  refine ⟨p, ignoring, including, l, further, hp, hmakes, hl, ?_⟩
  by_contra hnone
  refine of_decide_eq_true hdenied ((hiff _ none (of_decide_eq_true hallowed)).mpr ?_)
  exact fun c hc hlifts => hnone ⟨c, hc, hlifts⟩

/-- **With the include list for `build`, the file `build/a.rb` is allowed, and without it it is
not**, though the other include list is not empty. -/
theorem include_list_allows_more : ∃ p p', create bareHost endingPlan = .ok p ∧
    create bareHost { endingPlan with including := endingPlan.including ++ [buildSource] } =
      .ok p' ∧
    endingPlan.precedence = .lastOpinion ∧
    (∃ s ∈ endingPlan.including, ∃ l,
      listOf bareHost (Path.slashed endingPlan.root) true s = .ok l ∧ l.rules ≠ []) ∧
    (p'.judge bareHost "build/a.rb".toList false none).2 = .ok true ∧
    (p.judge bareHost "build/a.rb".toList false none).2 = .ok false := by
  obtain ⟨p, hp, hdenied⟩ : ∃ p, create bareHost endingPlan = .ok p ∧
      decide ((p.judge bareHost "build/a.rb".toList false none).2 = .ok false) = true :=
    exists_eq_ok_of_any (by decide +kernel)
  obtain ⟨p', hp', hallowed⟩ : ∃ p', create bareHost
      { endingPlan with including := endingPlan.including ++ [buildSource] } = .ok p' ∧
      decide ((p'.judge bareHost "build/a.rb".toList false none).2 = .ok true) = true :=
    exists_eq_ok_of_any (by decide +kernel)
  exact ⟨p, p', hp, hp', rfl, exists_rule_of_endingPlan, of_decide_eq_true hallowed,
    of_decide_eq_true hdenied⟩

end Policy
end PathFilter
