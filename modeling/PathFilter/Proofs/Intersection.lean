import PathFilter.Proofs.History
import PathFilter.Proofs.IncludeLists
import PathFilter.Proofs.ProbeErrors

/-! # Strict precedence is intersection

Where every list must allow a path, what a policy allows is what all of its lists allow, each taken
for itself: the paths that the policy of each part of the plan allows (`PolicyPlan.parts`, a part
being one source in its role, or the ignore files alone).  The policy asks all lists about one
directory after the other, each part asks one list about all directories; both come to the same
since nothing but a denial counts (`Policy.allows_allAllow_iff`).

* **A path is allowed by a strict policy exactly if each part of its plan allows it**, whatever
  ignore files have been loaded in all of them (`Policy.judge_allAllow_iff`).
* So a plan within another one allows whatever that one allows (`PolicyPlan.Within`,
  `Policy.exists_of_within`), and with the last opinion in the place of strict precedence no less
  is allowed (`Precedence.lastOpinion_of_allAllow`).
-/

namespace PathFilter

/-! ## Loading -/

/-- A step in which ignore files are loaded: that of a directory, whether or not it is known to be
present, or those of the directories above a path. -/
inductive Load where
  | directory (dir : Text) (present : Option Bool)
  | above (path : Text)

namespace Hierarchy
variable {h : Host} {g : Hierarchy}

/-- The hierarchy after a step.  What cannot be loaded is left out. -/
def step (h : Host) (g : Hierarchy) : Load → Hierarchy
  | .directory dir present => (g.load h dir present).toOption.getD g
  | .above path => (g.loadAbove h path).1

end Hierarchy

namespace Policy
variable {h : Host} {p : Policy} {path : Text} {isDir : Bool} {firstLine : Option Text}

/-- The policy after a step.  What cannot be loaded is left out. -/
def step (h : Host) (p : Policy) : Load → Policy
  | .directory dir present => (p.load h dir present).toOption.getD p
  | .above path => (p.loadAbove h path).1

/-- The policy after steps, one after the other. -/
def after (h : Host) (p : Policy) (loads : List Load) : Policy :=
  loads.foldl (step h) p

/-- Only the ignore files change in a step, and they do so by themselves. -/
theorem step_eq (l : Load) :
    p.step h l = { p with hierarchy := p.hierarchy.map (·.step h l) } := by
  obtain ⟨root, precedence, hierarchy, lists⟩ := p
  cases hierarchy with
  | none => cases l <;> rfl
  | some g =>
    cases l with
    | above path => rfl
    | directory dir present =>
      rw [step, load]
      simp only [Option.map_some, Hierarchy.step]
      cases g.load h dir present <;> rfl

theorem after_eq (loads : List Load) : p.after h loads =
    { p with hierarchy := p.hierarchy.map fun g => loads.foldl (Hierarchy.step h) g } := by
  induction loads generalizing p with
  | nil => cases p; simp [after]
  | cons l loads ih =>
    rw [after, List.foldl_cons, ← after, ih, step_eq, Option.map_map]
    rfl

/-- What is decided about a path on a sound host, once the ignore files above it are loaded. -/
theorem judge_snd (hs : h.Sound) : (p.judge h path isDir firstLine).2 =
    .ok ((p.step h (.above path)).allows path isDir firstLine) := by
  show (p.loadAbove h path).2.map _ = _
  rw [loadAbove_snd hs.mild path p]
  rfl

end Policy

/-! ## Denials -/

namespace Precedence
variable {c : Candidate} {ls : List RuleList}

theorem allAllow_iff : allAllow.allows ls c = true ↔ ∀ l ∈ ls, l.verdict c ≠ .denied := by
  simp [allows]

/-- **Where no list denies, the last opinion is no denial.** -/
theorem lastOpinion_of_allAllow (hall : allAllow.allows ls c = true) :
    lastOpinion.allows ls c = true := by
  have hnone := allAllow_iff.mp hall
  rw [lastOpinion_allows_iff]
  constructor
  · rintro ⟨l, hl, -, hdenied⟩
    exact hnone l hl hdenied
  · intro hlast
    obtain ⟨l, hl, hdenied⟩ := mem_opinions (List.mem_of_getLast? hlast)
    exact hnone l hl hdenied

end Precedence

namespace Policy
variable {h : Host} {p q : Policy} {path : Text} {isDir : Bool} {firstLine : Option Text}

/-- All that a policy asks its lists about to decide about a path: the directories above it, and
the path itself. -/
def candidates (p : Policy) (path : Text) (isDir : Bool) (firstLine : Option Text) :
    List Candidate :=
  p.above path ++ [p.candidate path isDir firstLine]

theorem allows_iff_candidates : p.allows path isDir firstLine = true ↔
    ∀ c ∈ p.candidates path isDir firstLine, p.allowsAlone c = true := by
  rw [allows_iff, candidates, List.forall_mem_append, List.forall_mem_singleton]

/-- **A strict policy allows a path if none of its lists denies anything on the way to it.** -/
theorem allows_allAllow_iff (hmode : p.precedence = .allAllow) :
    p.allows path isDir firstLine = true ↔
      ∀ l ∈ p.allLists, ∀ c ∈ p.candidates path isDir firstLine, l.verdict c ≠ .denied := by
  simp only [allows_iff_candidates, allowsAlone, hmode, Precedence.allAllow_iff]
  exact ⟨fun hall l hl c hc => hall c hc l hl, fun hall c hc l hl => hall l hl c hc⟩

/-- With the last opinion in the place of strict precedence, no less is allowed. -/
theorem allows_lastOpinion_of_allAllow (hmode : p.precedence = .allAllow)
    (hallowed : p.allows path isDir firstLine = true) :
    allows { p with precedence := .lastOpinion } path isDir firstLine = true := by
  rw [allows_iff_candidates] at hallowed ⊢
  intro c hc
  have hc' := hallowed c hc
  rw [allowsAlone, hmode] at hc'
  exact Precedence.lastOpinion_of_allAllow hc'

end Policy

/-! ## Plans and their parts -/

namespace PolicyPlan

/-- A plan that asks for nothing that is not in the other one. -/
structure Within (less plan : PolicyPlan) : Prop where
  root : less.root = plan.root
  precedence : less.precedence = plan.precedence
  ignoreFileRequired : less.ignoreFileRequired = plan.ignoreFileRequired
  globalFile : less.globalFile = plan.globalFile
  ignoreFiles : less.ignoreFiles = true → plan.ignoreFiles = true
  ignoring : less.ignoring ⊆ plan.ignoring
  including : less.including ⊆ plan.including
  further : less.further ⊆ plan.further

/-- The sources that a plan asks for, in their order, each with whether its list is an include
list. -/
def asked (plan : PolicyPlan) : List (Bool × Source) :=
  plan.ignoring.map (false, ·) ++ plan.including.map (true, ·) ++
    plan.further.map fun s => (s.allow, s)

/-- The plan without ignore files and without sources. -/
def bare (plan : PolicyPlan) : PolicyPlan :=
  { plan with ignoreFiles := false, ignoring := [], including := [], further := [] }

/-- The plans that keep one list of a plan each: the ignore files, or one source in its role. -/
def parts (plan : PolicyPlan) : List PolicyPlan :=
  (if plan.ignoreFiles then [{ plan.bare with ignoreFiles := true }] else []) ++
    plan.ignoring.map (fun s => { plan.bare with ignoring := [s] }) ++
    plan.including.map (fun s => { plan.bare with including := [s] }) ++
    plan.further.map fun s => { plan.bare with further := [s] }

theorem within_of_mem_parts {plan part : PolicyPlan} (hpart : part ∈ plan.parts) :
    part.Within plan := by
  have hnil : ∀ ss : List Source, [] ⊆ ss := List.nil_subset
  have hone : ∀ {s : Source} {ss : List Source}, s ∈ ss → [s] ⊆ ss :=
    fun hs => List.cons_subset.mpr ⟨hs, List.nil_subset _⟩
  simp only [parts, List.mem_append, List.mem_map] at hpart
  rcases hpart with ((hfiles | ⟨s, hs, rfl⟩) | ⟨s, hs, rfl⟩) | ⟨s, hs, rfl⟩
  · split at hfiles
    · rename_i henabled
      rw [List.mem_singleton.mp hfiles]
      exact ⟨rfl, rfl, rfl, rfl, fun _ => henabled, hnil _, hnil _, hnil _⟩
    · cases hfiles
  · exact ⟨rfl, rfl, rfl, rfl, nofun, hone hs, hnil _, hnil _⟩
  · exact ⟨rfl, rfl, rfl, rfl, nofun, hnil _, hone hs, hnil _⟩
  · exact ⟨rfl, rfl, rfl, rfl, nofun, hnil _, hnil _, hone hs⟩

/-- For each source that a plan asks for there is a part that asks for it alone. -/
theorem exists_part_of_mem_asked {plan : PolicyPlan} {r : Bool × Source} (hr : r ∈ plan.asked) :
    ∃ part ∈ plan.parts, part.root = plan.root ∧ part.asked = [r] := by
  simp only [asked, List.mem_append, List.mem_map] at hr
  rcases hr with (⟨s, hs, rfl⟩ | ⟨s, hs, rfl⟩) | ⟨s, hs, rfl⟩
  · exact ⟨{ plan.bare with ignoring := [s] }, by simp [parts, hs], rfl, rfl⟩
  · exact ⟨{ plan.bare with including := [s] }, by simp [parts, hs], rfl, rfl⟩
  · exact ⟨{ plan.bare with further := [s] }, by simp [parts, hs], rfl, rfl⟩

end PolicyPlan

namespace Policy
variable {h : Host} {p : Policy} {plan less : PolicyPlan}

/-- The lists of a policy that is created are those of the sources that its plan asks for. -/
theorem lists_of_create (hp : create h plan = .ok p) :
    plan.asked.mapM (fun r => listOf h (Path.slashed plan.root) r.1 r.2) = .ok p.lists := by
  obtain ⟨_, ignoring, including, further, -, hmakes, rfl⟩ := exists_of_create hp
  have hignoring := hmakes.ignoring
  have hincluding := hmakes.including
  have hfurther := hmakes.further
  refine mapM_append_eq_ok_iff.mpr ⟨ignoring ++ including, further, ?_, ?_, rfl⟩
  · refine mapM_append_eq_ok_iff.mpr ⟨ignoring, including, ?_, ?_, rfl⟩
    · rwa [List.mapM_map]
    · rwa [List.mapM_map]
  · rwa [List.mapM_map]

theorem allLists_after (loads : List Load) : (p.after h loads).allLists =
    (p.hierarchy.map fun g => (loads.foldl (Hierarchy.step h) g).toRuleList).toList ++ p.lists := by
  rw [after_eq, allLists, Option.map_map]
  rfl

/-- **A plan within another one makes a policy that has some of the lists of the other policy**,
whatever has been loaded in both of them. -/
theorem exists_of_within (hp : create h plan = .ok p) (hless : less.Within plan) :
    ∃ q, create h less = .ok q ∧ q.root = p.root ∧ q.precedence = p.precedence ∧
      ∀ loads, (q.after h loads).allLists ⊆ (p.after h loads).allLists := by
  obtain ⟨hierarchy, ignoring, including, further, hhierarchy, hmakes, rfl⟩ := exists_of_create hp
  obtain ⟨ignoring', hignoring, hle₁⟩ := exists_mapM_of_subset hmakes.ignoring hless.ignoring
  obtain ⟨including', hincluding, hle₂⟩ := exists_mapM_of_subset hmakes.including hless.including
  obtain ⟨further', hfurther, hle₃⟩ := exists_mapM_of_subset hmakes.further hless.further
  have hmakes' : less.Makes h ignoring' including' further' := by
    constructor <;> rw [hless.root] <;> assumption
  have hlists : ignoring' ++ including' ++ further' ⊆ ignoring ++ including ++ further := by
    intro l hl
    simp only [List.mem_append] at hl ⊢
    exact hl.imp (Or.imp (fun hl => hle₁ hl) (fun hl => hle₂ hl)) (fun hl => hle₃ hl)
  -- the ignore files are the same ones, if they are asked for
  obtain ⟨hierarchy', hhierarchy', hsame⟩ : ∃ hierarchy',
      (if less.ignoreFiles then
        some <$> Hierarchy.create h (Path.slashed less.root) less.globalFile less.ignoreFileRequired
      else pure none) = .ok hierarchy' ∧ (hierarchy' = none ∨ hierarchy' = hierarchy) := by
    cases hfiles : less.ignoreFiles with
    | false => exact ⟨none, rfl, .inl rfl⟩
    | true =>
      rw [if_pos (hless.ignoreFiles hfiles)] at hhierarchy
      rw [if_pos rfl, hless.root, hless.globalFile, hless.ignoreFileRequired]
      exact ⟨hierarchy, hhierarchy, .inr rfl⟩
  refine ⟨_, create_eq_ok hhierarchy' hmakes', congrArg Path.slashed hless.root, hless.precedence,
    fun loads => ?_⟩
  rw [allLists_after, allLists_after]
  rcases hsame with rfl | rfl
  · exact fun l hl => List.mem_append_right _ (hlists hl)
  · exact fun l hl => List.mem_append.mpr ((List.mem_append.mp hl).imp_right fun hl => hlists hl)

/-- **Each list of a policy is that of a part of its plan.** -/
theorem exists_part_of_mem_allLists (hp : create h plan = .ok p) {loads : List Load} {l : RuleList}
    (hl : l ∈ (p.after h loads).allLists) :
    ∃ part ∈ plan.parts, ∀ q, create h part = .ok q → l ∈ (q.after h loads).allLists := by
  rw [allLists_after, List.mem_append] at hl
  rcases hl with hl | hl
  · -- the ignore files of the part are made of the same sources
    obtain ⟨hierarchy, _, _, _, hhierarchy, -, rfl⟩ := exists_of_create hp
    obtain ⟨_, hg, rfl⟩ := List.mem_map.mp (Option.toList_map .. ▸ hl)
    obtain rfl := Option.mem_toList.mp hg
    split at hhierarchy
    · rename_i hfiles
      refine ⟨{ plan.bare with ignoreFiles := true }, by simp [PolicyPlan.parts, hfiles], ?_⟩
      intro q hq
      obtain ⟨hierarchy', _, _, _, hhierarchy', -, rfl⟩ := exists_of_create hq
      rw [if_pos rfl] at hhierarchy'
      cases hhierarchy.symm.trans hhierarchy'
      rw [allLists_after]
      exact List.mem_append_left _ (List.mem_singleton_self _)
    · cases hhierarchy
  · obtain ⟨r, hr, hlist⟩ := exists_of_mem_mapM (lists_of_create hp) hl
    obtain ⟨part, hpart, hroot, hasked⟩ := PolicyPlan.exists_part_of_mem_asked hr
    refine ⟨part, hpart, fun q hq => ?_⟩
    have hlists := lists_of_create hq
    rw [hasked, hroot] at hlists
    rw [allLists_after]
    exact List.mem_append_right _ (mem_of_mapM hlists (List.mem_singleton_self r) hlist)

end Policy

/-- The policy of a plan, after ignore files have been loaded, allows a path. -/
def PolicyPlan.Allows (h : Host) (plan : PolicyPlan) (loads : List Load) (path : Text)
    (isDir : Bool) (firstLine : Option Text) : Prop :=
  ∃ p, Policy.create h plan = .ok p ∧
    ((p.after h loads).judge h path isDir firstLine).2 = .ok true

namespace Policy
variable {h : Host} {p : Policy} {plan less : PolicyPlan}

/-- What is decided about a path, in terms of a policy that has loaded what the decision asks
for. -/
theorem judge_after_snd (hs : h.Sound) (loads : List Load) (path : Text) (isDir : Bool)
    (firstLine : Option Text) : ((p.after h loads).judge h path isDir firstLine).2 =
      .ok ((p.after h (loads ++ [.above path])).allows path isDir firstLine) := by
  rw [judge_snd hs, after, after, List.foldl_concat]

/-- A plan that makes a policy allows what the policy allows. -/
theorem allows_plan_iff (hs : h.Sound) (hp : create h plan = .ok p) {loads : List Load}
    {path : Text} {isDir : Bool} {firstLine : Option Text} :
    plan.Allows h loads path isDir firstLine ↔
      (p.after h (loads ++ [.above path])).allows path isDir firstLine = true := by
  constructor
  · rintro ⟨q, hq, hallowed⟩
    cases hp.symm.trans hq
    rw [judge_after_snd hs] at hallowed
    exact Except.ok.inj hallowed
  · intro hallowed
    exact ⟨p, hp, (judge_after_snd hs ..).trans (congrArg Except.ok hallowed)⟩

theorem candidates_congr {q : Policy} (hroot : q.root = p.root) (path : Text) (isDir : Bool)
    (firstLine : Option Text) :
    q.candidates path isDir firstLine = p.candidates path isDir firstLine := by
  have hcandidate : q.candidate = p.candidate := by
    funext path isDir firstLine
    rw [candidate, candidate, hroot]
  rw [candidates, candidates, above, above, hcandidate]

/-- What a strict policy allows after steps, in terms of its lists. -/
theorem after_allows_iff (hmode : p.precedence = .allAllow) (loads : List Load) (path : Text)
    (isDir : Bool) (firstLine : Option Text) :
    (p.after h loads).allows path isDir firstLine = true ↔
      ∀ l ∈ (p.after h loads).allLists, ∀ c ∈ p.candidates path isDir firstLine,
        l.verdict c ≠ .denied := by
  have hmode' : (p.after h loads).precedence = .allAllow := by
    rw [after_eq, hmode]
  have hroot : (p.after h loads).root = p.root := by
    rw [after_eq]
  rw [allows_allAllow_iff hmode', candidates_congr hroot]

/-- A plan within a strict one allows no less. -/
theorem allows_of_within (hs : h.Sound) (hp : create h plan = .ok p)
    (hmode : p.precedence = .allAllow) (hless : less.Within plan) {loads : List Load} {path : Text}
    {isDir : Bool} {firstLine : Option Text} (hallowed : plan.Allows h loads path isDir firstLine) :
    less.Allows h loads path isDir firstLine := by
  obtain ⟨q, hq, hroot, hprecedence, hlists⟩ := exists_of_within hp hless
  rw [allows_plan_iff hs hp, after_allows_iff hmode] at hallowed
  rw [allows_plan_iff hs hq, after_allows_iff (hprecedence.trans hmode), candidates_congr hroot]
  exact fun l hl => hallowed l (hlists _ hl)

/-- A strict plan allows what all of its parts allow. -/
theorem allows_of_parts (hs : h.Sound) (hp : create h plan = .ok p)
    (hmode : p.precedence = .allAllow) {loads : List Load} {path : Text} {isDir : Bool}
    {firstLine : Option Text}
    (hall : ∀ part ∈ plan.parts, part.Allows h loads path isDir firstLine) :
    plan.Allows h loads path isDir firstLine := by
  rw [allows_plan_iff hs hp, after_allows_iff hmode]
  intro l hl
  obtain ⟨part, hpart, hmem⟩ := exists_part_of_mem_allLists hp hl
  obtain ⟨q, hq, hroot, hprecedence, -⟩ :=
    exists_of_within hp (PolicyPlan.within_of_mem_parts hpart)
  have hallowed := hall part hpart
  rw [allows_plan_iff hs hq, after_allows_iff (hprecedence.trans hmode), candidates_congr hroot]
    at hallowed
  exact hallowed l (hmem q hq)

/-- With the last opinion in the place of strict precedence, a plan allows no less. -/
theorem allows_with_lastOpinion (hs : h.Sound) (hp : create h plan = .ok p)
    (hmode : p.precedence = .allAllow) {loads : List Load} {path : Text} {isDir : Bool}
    {firstLine : Option Text} (hallowed : plan.Allows h loads path isDir firstLine) :
    { plan with precedence := .lastOpinion }.Allows h loads path isDir firstLine := by
  rw [allows_plan_iff hs hp] at hallowed
  have hp' : create h { plan with precedence := .lastOpinion } =
      .ok { p with precedence := .lastOpinion } := by
    obtain ⟨_, _, _, _, hhierarchy, hmakes, rfl⟩ := exists_of_create hp
    exact create_eq_ok hhierarchy ⟨hmakes.ignoring, hmakes.including, hmakes.further⟩
  rw [allows_plan_iff hs hp']
  have hmode' : (p.after h (loads ++ [.above path])).precedence = .allAllow := by
    rw [after_eq, hmode]
  have hsame : after h { p with precedence := .lastOpinion } (loads ++ [.above path]) =
      { p.after h (loads ++ [.above path]) with precedence := .lastOpinion } := by
    rw [after_eq, after_eq]
  rw [hsame]
  exact allows_lastOpinion_of_allAllow hmode' hallowed

/-- **Strict precedence is intersection.**  Let every list have to allow a path.  Each part of the
plan makes a policy; and whatever ignore files have been loaded in all of them, some decision is
made about each path, and it is allowed exactly if each part allows it.  So a plan within this one
allows no less, and nor does the plan with the last opinion in the place of strict precedence. -/
theorem judge_allAllow_iff (hs : h.Sound) (hp : create h plan = .ok p)
    (hmode : plan.precedence = .allAllow) (loads : List Load) (path : Text) (isDir : Bool)
    (firstLine : Option Text) :
    (∀ part ∈ plan.parts, ∃ q, create h part = .ok q) ∧
    (∃ a, ((p.after h loads).judge h path isDir firstLine).2 = .ok a ∧
      (a = true ↔ ∀ part ∈ plan.parts, part.Allows h loads path isDir firstLine)) ∧
    (∀ less : PolicyPlan, less.Within plan → plan.Allows h loads path isDir firstLine →
      less.Allows h loads path isDir firstLine) ∧
    (plan.Allows h loads path isDir firstLine →
      { plan with precedence := .lastOpinion }.Allows h loads path isDir firstLine) := by
  have hmode' : p.precedence = .allAllow := by
    obtain ⟨_, _, _, _, -, -, rfl⟩ := exists_of_create hp
    exact hmode
  have hparts : ∀ part ∈ plan.parts, part.Within plan :=
    fun part hpart => PolicyPlan.within_of_mem_parts hpart
  refine ⟨fun part hpart => ?_, ⟨_, judge_after_snd hs loads path isDir firstLine, ?_⟩, ?_,
    allows_with_lastOpinion hs hp hmode'⟩
  · obtain ⟨q, hq, -⟩ := exists_of_within hp (hparts part hpart)
    exact ⟨q, hq⟩
  · rw [← allows_plan_iff hs hp]
    exact ⟨fun hallowed part hpart => allows_of_within hs hp hmode' (hparts part hpart) hallowed,
      allows_of_parts hs hp hmode'⟩
  · exact fun less hless => allows_of_within hs hp hmode' hless

/-- A strict plan with ignore files, a list that ignores logs, and one that includes `d`. -/
def strictPlan : PolicyPlan :=
  { root := "/r".toList
    precedence := .allAllow
    ignoring := [{ origin := .ofTexts ["*.log".toList] }]
    including := [{ origin := .ofTexts ["d/".toList], allow := true }] }

/-- The file `d/e` is allowed, and so by each of the three parts of the plan, without the list for
`d`, and with the last opinion.  The file `d/.c`, which an ignore file rules out, is ruled out. -/
theorem judge_strictPlan : ∃ p, create Filter.nestedHost strictPlan = .ok p ∧
    strictPlan.parts.length = 3 ∧
    (∀ part ∈ strictPlan.parts, part.Allows Filter.nestedHost [] "d/e".toList false none) ∧
    { strictPlan with including := [] }.Allows Filter.nestedHost [] "d/e".toList false none ∧
    { strictPlan with precedence := .lastOpinion }.Allows Filter.nestedHost [] "d/e".toList false
      none ∧
    ¬ ∀ part ∈ strictPlan.parts, part.Allows Filter.nestedHost [] "d/.c".toList false none := by
  have hs : Filter.nestedHost.Sound := Host.sound_of_ofEntries rfl rfl (by decide)
  obtain ⟨p, hp, hfacts⟩ : ∃ p, create Filter.nestedHost strictPlan = .ok p ∧
      decide ((p.judge Filter.nestedHost "d/e".toList false none).2 = .ok true ∧
        (p.judge Filter.nestedHost "d/.c".toList false none).2 = .ok false) = true :=
    exists_eq_ok_of_any (by decide +kernel)
  obtain ⟨hallowed, hdenied⟩ := of_decide_eq_true hfacts
  have hplan : strictPlan.Allows Filter.nestedHost [] "d/e".toList false none := ⟨p, hp, hallowed⟩
  have hless : { strictPlan with including := [] }.Within strictPlan :=
    ⟨rfl, rfl, rfl, rfl, id, List.Subset.refl _, List.nil_subset _, List.Subset.refl _⟩
  obtain ⟨-, ⟨a, ha, hiff⟩, hwithin, hlast⟩ :=
    judge_allAllow_iff hs hp rfl [] "d/e".toList false none
  obtain ⟨-, ⟨a', ha', hiff'⟩, -, -⟩ := judge_allAllow_iff hs hp rfl [] "d/.c".toList false none
  cases hallowed.symm.trans ha
  cases hdenied.symm.trans ha'
  exact ⟨p, hp, rfl, hiff.mp rfl, hwithin _ hless hplan, hlast hplan,
    fun hall => Bool.false_ne_true (hiff'.mpr hall)⟩

end Policy
end PathFilter
