import Mathlib.Data.List.Forall2
import PathFilter.Proofs.NestedRules

/-! # What a policy says of a path

A policy changes only by loading ignore files, and what it says of a path, once the directories
above the path are loaded, is what the policy says that it began as with just these directories
loaded (`Policy.along`): `Coherent.allowsAlone_eq`.  The first line of a file matters only where a
rule for an interpreter is among those that are known then, so a first line that is read without
need changes nothing (`Coherent.allowsAlone_firstLine`).
-/

namespace PathFilter
open PathFilter.Path

/-- Lists that say the same of a candidate, one by one, decide the same about it. -/
theorem Precedence.allows_congr (p : Precedence) {ls ls' : List RuleList} {c c' : Candidate}
    (h : List.Forall₂ (fun l l' => l.allow = l'.allow ∧ l.verdict c = l'.verdict c') ls ls') :
    p.allows ls c = p.allows ls' c' := by
  have hlast : ∀ v, lastOf c v ls = lastOf c' v ls' := by
    induction h with
    | nil => exact fun v => rfl
    | cons hl _ ih =>
      intro v
      rw [lastOf, lastOf, hl.1, hl.2]
      split
      · exact ih v
      · split
        · rfl
        · exact ih .denied
      · exact ih .allowed
  cases p with
  | lastOpinion => rw [allows, allows, hlast]
  | allAllow =>
    rw [allows, allows]
    clear hlast
    induction h with
    | nil => rfl
    | cons hl _ ih => rw [List.all_cons, List.all_cons, hl.2, ih]

namespace Policy
variable {h : Host} {b : Pathname} {p p₀ : Policy} {ds : List Text} {name : Text}

/-- The policy, and its ignore files if it has any, are those of a directory. -/
structure RootedAt (p : Policy) (b : Pathname) : Prop where
  root : p.root = b.dirText
  hierarchy : ∀ g, p.hierarchy = some g → g.root = b.dirText

/-- The policy with the ignore files of the directories on the way down loaded, and no others. -/
def along (h : Host) (p : Policy) (ds : List Text) : Policy :=
  { p with hierarchy := p.hierarchy.map (·.along h ds) }

/-- The ignore files of all directories on the way down are loaded, if they are to be. -/
def Knows (p : Policy) (ds : List Text) : Prop :=
  ∀ g, p.hierarchy = some g → g.Knows ds

/-- What a policy has become of the one it began as: nothing has changed but what is loaded. -/
structure Coherent (h : Host) (p₀ p : Policy) : Prop where
  root : p.root = p₀.root
  precedence : p.precedence = p₀.precedence
  lists : p.lists = p₀.lists
  hierarchy : Option.Rel (Hierarchy.Coherent h) p₀.hierarchy p.hierarchy

/-- The policy has loaded at least what the other one has. -/
def Extends (p p' : Policy) : Prop := ∀ ds, p.Knows ds → p'.Knows ds

theorem Extends.refl (p : Policy) : p.Extends p := fun _ hk => hk

theorem Extends.trans {p p' p'' : Policy} (h : p.Extends p') (h' : p'.Extends p'') :
    p.Extends p'' :=
  fun ds hk => h' ds (h ds hk)

theorem knows_nil : p.Knows [] := fun _ _ => Hierarchy.knows_nil

theorem Knows.of_initial {as : List Text} (hk : p.Knows ds) (hp : as <+: ds) : p.Knows as :=
  fun g hg => (hk g hg).of_initial hp

/-- A policy whose ignore files have loaded nothing yet is coherent. -/
theorem Coherent.refl (hp : ∀ g, p.hierarchy = some g → g.loads = []) : Coherent h p p := by
  refine ⟨rfl, rfl, rfl, ?_⟩
  cases hg : p.hierarchy with
  | none => exact .none
  | some g => exact .some (.refl (hp g hg))

/-- The ignore files of a coherent policy are what those have become that it began with. -/
theorem Coherent.exists_hierarchy (hp : Coherent h p₀ p) {g : Hierarchy}
    (hg : p.hierarchy = some g) : ∃ g₀, p₀.hierarchy = some g₀ ∧ g₀.Coherent h g := by
  have hrel := hp.hierarchy
  rw [hg] at hrel
  cases hg₀ : p₀.hierarchy with
  | none =>
    rw [hg₀] at hrel
    cases hrel
  | some g₀ =>
    rw [hg₀] at hrel
    cases hrel with
    | some hgg => exact ⟨g₀, rfl, hgg⟩

theorem Coherent.hierarchy_eq_none (hp : Coherent h p₀ p) (hg : p.hierarchy = none) :
    p₀.hierarchy = none := by
  have hrel := hp.hierarchy
  rw [hg] at hrel
  cases hg₀ : p₀.hierarchy with
  | none => rfl
  | some g₀ =>
    rw [hg₀] at hrel
    cases hrel

/-! ## Loading -/

/-- **Loading a directory behind those above it keeps the policy coherent.** -/
theorem Coherent.load (hp : Coherent h p₀ p) (hs : h.Sound) (hds : ∀ c ∈ ds, IsProper c)
    (hk : p.Knows ds.dropLast) {present : Option Bool}
    (hpresent : present = some false →
      ∀ g, p₀.hierarchy = some g → g.nestedRules h (dir ds) = []) :
    ∃ p', p.load h (dir ds) present = .ok p' ∧ Coherent h p₀ p' ∧ p'.Knows ds ∧
      p.Extends p' := by
  rw [Policy.load]
  cases hg : p.hierarchy with
  | none =>
    refine ⟨p, rfl, hp, fun g hsome => ?_, .refl p⟩
    rw [hg] at hsome
    cases hsome
  | some g =>
    obtain ⟨g₀, hg₀, hgg⟩ := hp.exists_hierarchy hg
    -- the root is loaded from the beginning
    obtain ⟨g', hload, hgg', hk', hle⟩ : ∃ g', g.load h (dir ds) present = .ok g' ∧
        g₀.Coherent h g' ∧ g'.Knows ds ∧ g.loaded ⊆ g'.loaded := by
      rcases List.eq_nil_or_concat ds with rfl | ⟨es, e, rfl⟩
      · refine ⟨g, ?_, hgg, Hierarchy.knows_nil, List.Subset.refl _⟩
        rw [Hierarchy.load, if_pos]
        rfl
      · rw [List.concat_eq_append] at *
        rw [List.dropLast_concat] at hk
        exact hgg.load hs hds (hk g hg) (fun e => hpresent e g₀ hg₀)
    refine ⟨{ p with hierarchy := some g' }, ?_, ⟨hp.root, hp.precedence, hp.lists, ?_⟩, ?_, ?_⟩
    · show Except.map _ (g.load h (dir ds) present) = _
      rw [hload]
      rfl
    · rw [hg₀]
      exact .some hgg'
    · rintro _ ⟨⟩
      exact hk'
    · rintro es hes _ ⟨⟩
      exact (hes g hg).mono hle

/-- **Loading the directories above a path succeeds and keeps the policy coherent.** -/
theorem Coherent.loadAbove (hp : Coherent h p₀ p) (hs : h.Sound) (hds : ∀ c ∈ ds, IsProper c)
    (hname : name.IsName) :
    ∃ p', p.loadAbove h (dir ds ++ name) = (p', .ok ()) ∧ Coherent h p₀ p' ∧ p'.Knows ds ∧
      p.Extends p' := by
  rw [Policy.loadAbove]
  cases hg : p.hierarchy with
  | none =>
    refine ⟨p, rfl, hp, fun g hsome => ?_, .refl p⟩
    rw [hg] at hsome
    cases hsome
  | some g =>
    obtain ⟨g₀, hg₀, hgg⟩ := hp.exists_hierarchy hg
    obtain ⟨g', hload, hgg', hk', hle⟩ := hgg.loadAbove hs hds hname
    refine ⟨{ p with hierarchy := some g' }, ?_, ⟨hp.root, hp.precedence, hp.lists, ?_⟩, ?_, ?_⟩
    · simp only [hload]
    · rw [hg₀]
      exact .some hgg'
    · rintro _ ⟨⟩
      exact hk'
    · rintro es hes _ ⟨⟩
      exact (hes g hg).mono hle

/-! ## What is decided -/

/-- **Once the directories above a path are loaded, a policy decides about it as the one it began
as does with no other directories loaded.** -/
theorem Coherent.allowsAlone_eq (hp : Coherent h p₀ p) (hb : b.IsNormal) (hroot : p₀.RootedAt b)
    (hds : ∀ c ∈ ds, IsProper c) (hk : p.Knows ds) {c : Candidate} (hname : name.IsName)
    (hc : c.path = b.dirText ++ dir ds ++ name) :
    p.allowsAlone c = (p₀.along h ds).allowsAlone c := by
  have hlists : (p₀.along h ds).lists = p₀.lists := rfl
  have hprecedence : (p₀.along h ds).precedence = p₀.precedence := rfl
  rw [allowsAlone, allowsAlone, hp.precedence, hprecedence]
  apply Precedence.allows_congr _
  rw [allLists, allLists, hp.lists, hlists, along]
  cases hg : p.hierarchy with
  | none =>
    rw [hp.hierarchy_eq_none hg]
    exact List.forall₂_same.mpr (fun l _ => ⟨rfl, rfl⟩)
  | some g =>
    obtain ⟨g₀, hg₀, hgg⟩ := hp.exists_hierarchy hg
    rw [hg₀]
    refine .cons ⟨rfl, ?_⟩ (List.forall₂_same.mpr (fun l _ => ⟨rfl, rfl⟩))
    exact hgg.verdict_eq hb (hroot.hierarchy g₀ hg₀) hds (hk g hg) hname hc

/-- A policy without rules for interpreters decides the same about a file, whatever its first
line. -/
theorem allowsAlone_eq_of_not_readsFirstLine (hp : p.readsFirstLine = false) (path : Text)
    (isDir : Bool) (s t : Option Text) :
    p.allowsAlone ⟨path, isDir, s⟩ = p.allowsAlone ⟨path, isDir, t⟩ := by
  refine Precedence.allows_congr _ (List.forall₂_same.mpr (fun l hl => ⟨rfl, ?_⟩))
  have hreads : l.readsFirstLine = false := by
    rw [readsFirstLine, List.any_eq_false] at hp
    exact eq_false_of_ne_true (hp l hl)
  exact l.verdict_eq_of_not_readsFirstLine hreads path isDir s t

/-- A rule for an interpreter that is known on the way down to a directory stays known. -/
theorem Coherent.readsFirstLine_of_along (hp : Coherent h p₀ p) (hds : ∀ c ∈ ds, IsProper c)
    (hk : p.Knows ds) (hreads : (p₀.along h ds).readsFirstLine = true) :
    p.readsFirstLine = true := by
  have hlists : (p₀.along h ds).lists = p₀.lists := rfl
  rw [readsFirstLine, allLists, List.any_append, hlists, Bool.or_eq_true] at hreads
  rw [readsFirstLine, allLists, List.any_append, Bool.or_eq_true, hp.lists]
  refine hreads.imp (fun hreads => ?_) id
  rw [along] at hreads
  cases hg : p.hierarchy with
  | none =>
    rw [hp.hierarchy_eq_none hg] at hreads
    cases hreads
  | some g =>
    obtain ⟨g₀, hg₀, hgg⟩ := hp.exists_hierarchy hg
    rw [hg₀] at hreads
    simp only [Option.map_some, Option.toList_some, List.any_cons, List.any_nil, Bool.or_false]
      at hreads ⊢
    obtain ⟨r, hr, hrr⟩ := List.any_eq_true.mp hreads
    exact List.any_eq_true.mpr ⟨r, hgg.rules_along_subset hds (hk g hg) hr, hrr⟩

/-- **A first line that is read without need changes nothing.**  The policy that a policy began as
tells whether the first line is needed; more rules may have been loaded when it is read. -/
theorem Coherent.allowsAlone_firstLine (hp : Coherent h p₀ p) (hb : b.IsNormal)
    (hroot : p₀.RootedAt b) (hds : ∀ c ∈ ds, IsProper c) (hk : p.Knows ds) (hname : name.IsName)
    {reads : Bool} (hreads : (p₀.along h ds).readsFirstLine = true → reads = true)
    (isDir script : Bool) (line : Option Text) :
    p.allowsAlone ⟨b.dirText ++ dir ds ++ name, isDir, if reads && script then line else none⟩ =
      (p₀.along h ds).allowsAlone ⟨b.dirText ++ dir ds ++ name, isDir,
        if (p₀.along h ds).readsFirstLine && script then line else none⟩ := by
  rw [hp.allowsAlone_eq hb hroot hds hk hname rfl]
  cases hneed : (p₀.along h ds).readsFirstLine with
  | false => exact allowsAlone_eq_of_not_readsFirstLine hneed _ _ _ _
  | true => rw [hreads hneed]

/-- Each directory on the way down is allowed by the rules that hold for it. -/
def AllowsWay (h : Host) (p : Policy) (b : Pathname) (ds : List Text) : Prop :=
  ∀ es e, es ++ [e] <+: ds →
    (p.along h es).allowsAlone ⟨b.dirText ++ dir es ++ e, true, none⟩ = true

theorem allowsWay_nil (h : Host) (p : Policy) (b : Pathname) : p.AllowsWay h b [] :=
  fun _ _ hp => absurd (List.prefix_nil.mp hp) (by simp)

/-- One more directory on the way down. -/
theorem allowsWay_concat_iff {h : Host} {p : Policy} {b : Pathname} {ds : List Text} {d : Text} :
    p.AllowsWay h b (ds ++ [d]) ↔ p.AllowsWay h b ds ∧
      (p.along h ds).allowsAlone ⟨b.dirText ++ dir ds ++ d, true, none⟩ = true := by
  constructor
  · intro hway
    exact ⟨fun es e hp => hway es e (hp.trans (List.prefix_append ds [d])),
      hway ds d (List.prefix_refl _)⟩
  · rintro ⟨hway, hlast⟩ es e hp
    rcases List.prefix_concat_iff.mp hp with heq | hp
    · obtain ⟨rfl, hlast'⟩ := List.append_inj' heq rfl
      rw [List.singleton_inj.mp hlast']
      exact hlast
    · exact hway es e hp

/-- **Once the directories above a path are loaded, all of them are allowed exactly if each is by
the rules that hold for it.** -/
theorem Coherent.allowsAbove_iff (hp : Coherent h p₀ p) (hb : b.IsNormal)
    (hroot : p₀.RootedAt b) (hds : ∀ c ∈ ds, IsProper c) (hk : p.Knows ds)
    (hname : name.IsName) :
    p.allowsAbove (dir ds ++ name) = true ↔ p₀.AllowsWay h b ds := by
  have hcandidate : ∀ es e, es ++ [e] <+: ds →
      p.candidate (Text.dropTrailing (· = '/') (dir (es ++ [e]))) true none =
        ⟨b.dirText ++ dir es ++ e, true, none⟩ := by
    intro es e hp'
    have he : e.IsName := (hds e (hp'.subset (by simp))).1
    obtain ⟨s, a, rfl, ha⟩ := he.exists_concat
    have hdrop : Text.dropTrailing (· = '/') (dir (es ++ [s ++ [a]])) = dir es ++ (s ++ [a]) := by
      rw [dir_concat]
      simp [Text.dropTrailing, ha]
    rw [hdrop, candidate, hp.root, hroot.root, List.append_assoc]
  have halone : ∀ es e, es ++ [e] <+: ds →
      p.allowsAlone ⟨b.dirText ++ dir es ++ e, true, none⟩ =
        (p₀.along h es).allowsAlone ⟨b.dirText ++ dir es ++ e, true, none⟩ := by
    intro es e hp'
    have hes : es <+: ds := (List.prefix_append es [e]).trans hp'
    exact hp.allowsAlone_eq hb hroot (fun c hc => hds c (hes.subset hc)) (hk.of_initial hes)
      (hds e (hp'.subset (by simp))).1 rfl
  rw [allowsAbove, ancestors_dir_append (fun c hc => (hds c hc).1) hname, List.all_eq_true]
  constructor
  · intro hall es e hp'
    have hmem : dir (es ++ [e]) ∈ descend [] ds :=
      mem_descend_iff.mpr ⟨es ++ [e], by simp, hp', rfl⟩
    rw [← halone es e hp', ← hcandidate es e hp']
    exact hall _ hmem
  · intro hway d hd
    obtain ⟨as, hne, has, rfl⟩ := mem_descend_iff.mp hd
    obtain ⟨es, e, rfl⟩ := List.eq_nil_or_concat as |>.resolve_left hne
    rw [List.concat_eq_append] at has ⊢
    rw [List.nil_append, hcandidate es e has, halone es e has]
    exact hway es e has

end Policy
end PathFilter
