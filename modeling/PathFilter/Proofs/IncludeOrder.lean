import PathFilter.Proofs.Intersection

/-! # The order of include lists

The last list with an opinion decides about a path, so the order of lists matters; among include
lists it does not.  What one of them denies stays denied, wherever it stands
(`Precedence.Vetoed`), and where none of them denies a path all their opinions are the same, so
that the last of them is, too.

* **Include lists may change places within any row of lists** (`Precedence.allows_perm`).
* Policies whose lists decide alike about all that leads to a path decide alike about the path,
  whatever has been loaded in both of them (`Policy.judge_after_with_lists`).
* **The order of the include sources of a plan is irrelevant**, whether the policy can be made and
  for all that it decides, whatever ignore files have been loaded
  (`Policy.judge_including_perm`).
-/

namespace PathFilter

/-! ## Rows of lists -/

namespace Precedence
variable {c : Candidate} {ls ls' before behind : List RuleList}

theorem Vetoed.perm (hperm : ls.Perm ls') : Vetoed ls c ↔ Vetoed ls' c :=
  ⟨fun hv => hv.of_subset hperm.subset, fun hv => hv.of_subset hperm.symm.subset⟩

/-- The opinions of include lists are all the same where none of the lists denies. -/
theorem opinions_eq_replicate (hallow : ∀ l ∈ ls, l.allow = true) (hveto : ¬ Vetoed ls c) :
    opinions c ls = List.replicate (opinions c ls).length .allowed := by
  rw [List.eq_replicate_iff, and_iff_right rfl]
  intro v hv
  obtain ⟨l, hl, rfl⟩ := mem_opinions hv
  have hopinion : l.verdict c ≠ .noOpinion := of_decide_eq_true (List.mem_filter.mp hv).2
  cases hverdict : l.verdict c with
  | allowed => rfl
  | denied => exact absurd ⟨l, hl, hallow l hl, hverdict⟩ hveto
  | noOpinion => exact absurd hverdict hopinion

/-- So it does not matter in which order they are given. -/
theorem opinions_perm (hallow : ∀ l ∈ ls, l.allow = true) (hveto : ¬ Vetoed ls c)
    (hperm : ls.Perm ls') : opinions c ls' = opinions c ls := by
  have hopinions : (opinions c ls').Perm (opinions c ls) := ((hperm.map _).filter _).symm
  rw [opinions_eq_replicate hallow hveto] at hopinions ⊢
  exact List.perm_replicate.mp hopinions

/-- **Include lists may change places within a row of lists.** -/
theorem allows_perm (p : Precedence) (hallow : ∀ l ∈ ls, l.allow = true) (hperm : ls.Perm ls')
    (before behind : List RuleList) (c : Candidate) :
    p.allows (before ++ ls' ++ behind) c = p.allows (before ++ ls ++ behind) c := by
  have hrow : (before ++ ls' ++ behind).Perm (before ++ ls ++ behind) :=
    (hperm.symm.append_left before).append_right behind
  rw [Bool.eq_iff_iff]
  cases p with
  | allAllow =>
    rw [allAllow_iff, allAllow_iff]
    exact forall_congr' fun l => imp_congr_left hrow.mem_iff
  | lastOpinion =>
    rw [lastOpinion_allows_iff, lastOpinion_allows_iff, Vetoed.perm hrow]
    refine and_congr_right fun hveto => ?_
    have hblock : ¬ Vetoed ls c := fun hv => hveto (hv.of_subset (by simp))
    simp only [opinions_append, opinions_perm hallow hblock hperm]

end Precedence

/-! ## Policies that differ in their lists -/

namespace Policy
variable {h : Host} {p : Policy} {ls : List RuleList}

/-- What is loaded does not depend on the lists of the caller. -/
theorem after_with_lists (ls : List RuleList) (loads : List Load) :
    after h { p with lists := ls } loads = { p.after h loads with lists := ls } := by
  rw [after_eq, after_eq]

/-- Only the ignore files change where those above a path are loaded. -/
theorem loadAbove_fst (h : Host) (path : Text) (p : Policy) : (p.loadAbove h path).1 =
    { p with hierarchy := p.hierarchy.map fun g => (g.loadAbove h path).1 } :=
  step_eq (.above path)

/-- Lists that decide alike about all that leads to a path decide alike about the path. -/
theorem judge_with_lists {path : Text} {isDir : Bool} {firstLine : Option Text}
    (halike : ∀ c ∈ p.candidates path isDir firstLine,
      allowsAlone { (p.loadAbove h path).1 with lists := ls } c =
        (p.loadAbove h path).1.allowsAlone c) :
    (judge h path isDir firstLine { p with lists := ls }).2 =
      (p.judge h path isDir firstLine).2 := by
  have hcandidates : (p.loadAbove h path).1.candidates path isDir firstLine =
      p.candidates path isDir firstLine :=
    candidates_congr (congrArg root (loadAbove_fst h path p)) path isDir firstLine
  have hallows : allows { (p.loadAbove h path).1 with lists := ls } path isDir firstLine =
      (p.loadAbove h path).1.allows path isDir firstLine := by
    rw [Bool.eq_iff_iff, allows_iff_candidates, allows_iff_candidates]
    exact forall₂_congr fun c hc => Bool.eq_iff_iff.mp (halike c (hcandidates ▸ hc))
  rw [judge, judge, loadAbove_lists]
  show (p.loadAbove h path).2.map (fun _ => allows _ path isDir firstLine) = _
  rw [hallows]

/-- **Lists that decide alike about some candidates, behind any others, do so after all loads**, and
alike about the paths to which only such candidates lead. -/
theorem judge_after_with_lists {P : Candidate → Prop}
    (halike : ∀ before c, P c →
      p.precedence.allows (before ++ ls) c = p.precedence.allows (before ++ p.lists) c)
    (loads : List Load) :
    (∀ c, P c → (after h { p with lists := ls } loads).allowsAlone c =
      (p.after h loads).allowsAlone c) ∧
    ∀ path isDir firstLine, (∀ c ∈ p.candidates path isDir firstLine, P c) →
      (judge h path isDir firstLine (after h { p with lists := ls } loads)).2 =
        ((p.after h loads).judge h path isDir firstLine).2 := by
  -- the ignore files come before the lists, whatever has been loaded
  have halone : ∀ hierarchy c, P c → allowsAlone { p with hierarchy, lists := ls } c =
      allowsAlone { p with hierarchy } c :=
    fun _ c hc => halike _ c hc
  rw [after_with_lists, after_eq]
  refine ⟨fun c hc => halone _ c hc, fun path isDir firstLine hall => ?_⟩
  refine judge_with_lists fun c hc => ?_
  rw [loadAbove_fst]
  exact halone _ c (hall c hc)

end Policy

/-! ## Plans -/

namespace Policy
variable {h : Host} {plan : PolicyPlan} {p p' : Policy} {including : List Source}

/-- Include sources in another order make the same lists in another order. -/
theorem exists_create_including_perm (hp : create h plan = .ok p)
    (hperm : plan.including.Perm including) :
    ∃ before ls ls' behind, (∀ l ∈ ls, l.allow = true) ∧ ls.Perm ls' ∧
      p.lists = before ++ ls ++ behind ∧
      create h { plan with including } = .ok { p with lists := before ++ ls' ++ behind } := by
  obtain ⟨hierarchy, before, ls, behind, hhierarchy, hmakes, rfl⟩ := exists_of_create hp
  obtain ⟨ls', hls', hlists⟩ := exists_mapM_of_perm hmakes.including hperm
  refine ⟨before, ls, ls', behind, fun l hl => ?_, hlists, rfl,
    create_eq_ok hhierarchy ⟨hmakes.ignoring, hls', hmakes.further⟩⟩
  obtain ⟨s, -, hs⟩ := exists_of_mem_mapM hmakes.including hl
  obtain ⟨rules, -, rfl⟩ := map_eq_ok_iff.mp hs
  rfl

/-- **The order of include lists is irrelevant.**  Let the include sources of a plan be given in
another order.  The policy can be made in both orders or in neither; and after the same loads the
two policies give the same answer about each candidate by itself, and about each path with the
directories above it. -/
theorem judge_including_perm (hperm : plan.including.Perm including) :
    ((∃ p, create h plan = .ok p) ↔ ∃ p', create h { plan with including } = .ok p') ∧
      ∀ p p', create h plan = .ok p → create h { plan with including } = .ok p' →
        ∀ loads : List Load,
          (∀ c, (p'.after h loads).allowsAlone c = (p.after h loads).allowsAlone c) ∧
          ∀ path isDir firstLine, ((p'.after h loads).judge h path isDir firstLine).2 =
            ((p.after h loads).judge h path isDir firstLine).2 := by
  refine ⟨⟨fun ⟨p, hp⟩ => ?_, fun ⟨p', hp'⟩ => ?_⟩, fun p p' hp hp' loads => ?_⟩
  · obtain ⟨_, _, _, _, -, -, -, hp'⟩ := exists_create_including_perm hp hperm
    exact ⟨_, hp'⟩
  · obtain ⟨_, _, _, _, -, -, -, hp⟩ := exists_create_including_perm hp' hperm.symm
    exact ⟨_, hp⟩
  obtain ⟨before, ls, ls', behind, hallow, hlists, hrow, hcreate⟩ :=
    exists_create_including_perm hp hperm
  obtain rfl := Except.ok.inj (hp'.symm.trans hcreate)
  have hmove : ∀ front c, p.precedence.allows (front ++ (before ++ ls' ++ behind)) c =
      p.precedence.allows (front ++ p.lists) c := by
    intro front c
    have hblock := Precedence.allows_perm p.precedence hallow hlists (front ++ before) behind c
    simpa only [hrow, List.append_assoc] using hblock
  obtain ⟨halone, hjudge⟩ :=
    judge_after_with_lists (h := h) (P := fun _ => True) (fun front c _ => hmove front c) loads
  exact ⟨fun c => halone c trivial,
    fun path isDir firstLine => hjudge path isDir firstLine fun _ _ => trivial⟩

/-- A plan that ignores the directory `d`, and has an include list for `d` and one for `e`. -/
def narrowingPlan : PolicyPlan :=
  { root := "/r".toList
    ignoring := [{ origin := .ofTexts ["d/".toList] }]
    including := [{ origin := .ofTexts ["d/".toList], allow := true },
      { origin := .ofTexts ["e".toList], allow := true }] }

/-- With the two include lists in either order, the file `d/e` is allowed, the directory above it in
spite of the ignore list, and the file `d/.c` is not. -/
theorem judge_narrowingPlan :
    narrowingPlan.including.Perm narrowingPlan.including.reverse ∧
      ∃ p, create Filter.nestedHost { narrowingPlan with
          including := narrowingPlan.including.reverse } = .ok p ∧
        (p.judge Filter.nestedHost "d/e".toList false none).2 = .ok true ∧
        (p.judge Filter.nestedHost "d/.c".toList false none).2 = .ok false := by
  have hperm := narrowingPlan.including.reverse_perm.symm
  obtain ⟨p, hp, hfacts⟩ : ∃ p, create Filter.nestedHost narrowingPlan = .ok p ∧
      decide ((p.judge Filter.nestedHost "d/e".toList false none).2 = .ok true ∧
        (p.judge Filter.nestedHost "d/.c".toList false none).2 = .ok false) = true :=
    exists_eq_ok_of_any (by decide +kernel)
  obtain ⟨hallowed, hdenied⟩ := of_decide_eq_true hfacts
  obtain ⟨hboth, halike⟩ := judge_including_perm (h := Filter.nestedHost) hperm
  obtain ⟨p', hp'⟩ := hboth.mp ⟨p, hp⟩
  obtain ⟨-, hjudge⟩ := halike p p' hp hp' []
  exact ⟨hperm, p', hp', (hjudge _ false none).trans hallowed, (hjudge _ false none).trans hdenied⟩

end Policy
end PathFilter
