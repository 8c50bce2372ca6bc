import Mathlib.Logic.Relation
import PathFilter.Proofs.Iteration

/-! # The order in which ignore files are loaded

Ignore files are loaded from three places: by a question, for all directories above its path; by an
iteration, for the root; and by an iteration, for each directory that it enters.  Each of them may
fail, and is left off there.  **All that happens to a hierarchy in any of them is one thing, any
number of times** (`Hierarchy.Joins`, `Hierarchy.Grows`): the ignore file of one more directory
joins it, of one with names that lead down, not loaded yet and below others that are, with the rules
that the file gives at the time.

* This is so of loading a directory and of loading those above a path (`grows_of_load`,
  `grows_loadAbove`), and what is loaded stays in order through it (`Ordered.grows`).
* An iteration only enters directories whose names lead down from one that it is inside of and
  that is loaded (`Frame.Within`).  So a stretch of it only makes the hierarchy grow, whatever has
  become of the files since it has begun (`Walk.advance_grows`).
* So does each question (`Filter.ask_grows`) and each iteration that is advanced
  (`Filter.advance_grows`).
-/

namespace PathFilter
open PathFilter.Path

/-! ## Hierarchies -/

namespace Hierarchy
variable {h : Host} {g g' : Hierarchy} {ds : List Text} {e : Text} {present : Option Bool}

/-- **All that can happen to a hierarchy on a host**: the ignore file of one more directory joins
it, behind those of the directories above. -/
inductive Joins (h : Host) (g : Hierarchy) : Hierarchy → Prop where
  | join {ds : List Text} {rules : List Rule} : (∀ d ∈ ds, IsProper d) → dir ds ∉ g.loaded →
      (∀ a ∈ ancestors (dir ds), a ∈ g.loaded) → g.rulesIn h (dir ds) = .ok rules →
      Joins h g { g with loads := g.loads ++ [(dir ds, rules)] }

/-- What a hierarchy can become on a host. -/
def Grows (h : Host) : Hierarchy → Hierarchy → Prop := Relation.ReflTransGen (Joins h)

/-- With each directory those above it are loaded; and the ignore files are loaded once, none
behind one that is below it. -/
structure Ordered (g : Hierarchy) : Prop where
  closed : ∀ d ∈ g.loaded, ∀ a ∈ ancestors d, a ∈ g.loaded
  nodup : g.loaded.Nodup
  above : g.loads.Pairwise fun x y => y.1 ∉ ancestors x.1

theorem loaded_append (g : Hierarchy) (added : List (Text × List Rule)) :
    Hierarchy.loaded { g with loads := g.loads ++ added } = g.loaded ++ added.map (·.1) := by
  simp [loaded]

/-- A hierarchy that has loaded nothing yet is in order. -/
theorem ordered_of_loads_eq_nil (hg : g.loads = []) : g.Ordered := by
  have hloaded : g.loaded = [[]] := by rw [loaded, hg, List.map_nil]
  refine ⟨fun d hd a ha => ?_, ?_, ?_⟩
  · rw [hloaded, List.mem_singleton] at hd
    subst hd
    cases ha
  · rw [hloaded]
    exact List.nodup_singleton []
  · rw [hg]
    exact .nil

theorem Ordered.of_joins (hg : g.Ordered) (hjoins : Joins h g g') : g'.Ordered := by
  obtain ⟨-, hnew, habove, -⟩ := hjoins
  rename_i ds rules
  refine ⟨?_, ?_, List.pairwise_append.mpr ⟨hg.above, List.pairwise_singleton _ _, ?_⟩⟩
  · rw [loaded_append]
    intro e he a ha
    rcases List.mem_append.mp he with he | he
    · exact List.mem_append_left _ (hg.closed e he a ha)
    · rw [List.mem_singleton.mp he] at ha
      exact List.mem_append_left _ (habove a ha)
  · rw [loaded_append]
    refine List.nodup_append.mpr ⟨hg.nodup, List.nodup_singleton _, fun e he c hc hec => ?_⟩
    rw [hec, List.mem_singleton.mp hc] at he
    exact hnew he
  · -- one that is above an earlier one has been loaded with it
    intro x hx y hy hmem
    rw [List.mem_singleton.mp hy] at hmem
    exact hnew (hg.closed x.1 (List.mem_cons_of_mem _ (List.mem_map_of_mem hx)) _ hmem)

/-- **A hierarchy stays in order.** -/
theorem Ordered.grows (hg : g.Ordered) (hgrows : g.Grows h g') : g'.Ordered := by
  induction hgrows with
  | refl => exact hg
  | tail _ hjoins ih => exact ih.of_joins hjoins

/-- **Growing puts ignore files behind those that are loaded**, of other directories, with names
that lead down, and with the rules that they give on the host. -/
theorem Grows.exists_append (hgrows : g.Grows h g') :
    ∃ added, g' = { g with loads := g.loads ++ added } ∧
      ∀ x ∈ added, x.1 ∉ g.loaded ∧ (∃ ds, (∀ d ∈ ds, IsProper d) ∧ x.1 = dir ds) ∧
        g.rulesIn h x.1 = .ok x.2 := by
  induction hgrows with
  | refl => exact ⟨[], by rw [List.append_nil], fun x hx => absurd hx List.not_mem_nil⟩
  | tail _ hjoins ih =>
    obtain ⟨added, rfl, hadded⟩ := ih
    obtain ⟨hds, hnew, -, hrules⟩ := hjoins
    rename_i ds rules
    refine ⟨added ++ [(dir ds, rules)], by rw [List.append_assoc], fun x hx => ?_⟩
    rcases List.mem_append.mp hx with hx | hx
    · exact hadded x hx
    · rw [List.mem_singleton.mp hx]
      rw [loaded_append] at hnew
      exact ⟨fun hmem => hnew (List.mem_append_left _ hmem), ⟨ds, hds, rfl⟩, hrules⟩

theorem Grows.root_eq (hgrows : g.Grows h g') : g'.root = g.root := by
  obtain ⟨_, rfl, -⟩ := hgrows.exists_append
  rfl

theorem Grows.seed_eq (hgrows : g.Grows h g') : g'.seed = g.seed := by
  obtain ⟨_, rfl, -⟩ := hgrows.exists_append
  rfl

theorem Grows.prefix_loads (hgrows : g.Grows h g') : g.loads <+: g'.loads := by
  obtain ⟨_, rfl, -⟩ := hgrows.exists_append
  exact List.prefix_append _ _

theorem loaded_subset_of_prefix (hloads : g.loads <+: g'.loads) : g.loaded ⊆ g'.loaded :=
  List.cons_subset_cons [] ((hloads.map (·.1)).subset)

theorem Grows.loaded_subset (hgrows : g.Grows h g') : g.loaded ⊆ g'.loaded :=
  loaded_subset_of_prefix hgrows.prefix_loads

/-! ### Loading -/

/-- **Loading a directory behind those above it makes a hierarchy grow**, if a file is taken for
absent only where none can be read. -/
theorem grows_of_load (hds : ∀ d ∈ ds, IsProper d)
    (habove : ∀ a ∈ ancestors (dir ds), a ∈ g.loaded)
    (hpresent : present = some false → g.rulesIn h (dir ds) = .ok [])
    (hload : g.load h (dir ds) present = .ok g') : g.Grows h g' ∧ dir ds ∈ g'.loaded := by
  rw [load] at hload
  split at hload
  · rename_i hmem
    cases hload
    exact ⟨.refl, List.contains_iff_mem.mp hmem⟩
  · rename_i hnew
    have hjoin : ∀ {rules : List Rule}, g.rulesIn h (dir ds) = .ok rules →
        g.Grows h { g with loads := g.loads ++ [(dir ds, rules)] } ∧
          dir ds ∈ Hierarchy.loaded { g with loads := g.loads ++ [(dir ds, rules)] } := by
      intro rules hrules
      have hnot : dir ds ∉ g.loaded := fun hmem => hnew (List.contains_iff_mem.mpr hmem)
      refine ⟨.single (.join hds hnot habove hrules), ?_⟩
      rw [loaded_append]
      exact List.mem_append_right _ (List.mem_singleton_self _)
    split at hload
    · rename_i habsent
      cases hload
      exact hjoin (hpresent habsent)
    · obtain ⟨rules, hrules, rfl⟩ := map_eq_ok_iff.mp hload
      exact hjoin hrules

/-- Loading all directories on a way down, from one that is loaded on, makes a hierarchy grow, also
where it fails on the way. -/
theorem grows_loadAll {as bs : List Text} (hnames : ∀ c ∈ as ++ bs, IsProper c) (hk : g.Knows as) :
    g.Grows h (g.loadAll h (descend (dir as) bs)).1 := by
  induction bs generalizing as g with
  | nil => exact .refl
  | cons d bs ih =>
    have hsplit : as ++ d :: bs = as ++ [d] ++ bs := by simp
    rw [hsplit] at hnames
    rw [descend, loadAll]
    simp only [← dir_concat]
    cases hload : g.load h (dir (as ++ [d])) none with
    | error e => exact .refl
    | ok g₁ =>
      have hdown : ∀ c ∈ as ++ [d], IsProper c := (List.forall_mem_append.mp hnames).1
      have habove : ∀ a ∈ ancestors (dir (as ++ [d])), a ∈ g.loaded := by
        rw [ancestors_dir fun c hc => (hdown c hc).1, List.dropLast_concat]
        exact hk
      have hnone : (none : Option Bool) = some false →
          g.rulesIn h (dir (as ++ [d])) = .ok [] := by simp
      obtain ⟨hgrows, hmem⟩ := grows_of_load hdown habove hnone hload
      exact hgrows.trans
        (ih hnames (knows_concat_iff.mpr ⟨hk.mono hgrows.loaded_subset, hmem⟩))

/-- **Loading the directories above a path makes a hierarchy grow**, also where it fails. -/
theorem grows_loadAbove (hds : ∀ c ∈ ds, IsProper c) (he : e.IsName) (g : Hierarchy) :
    g.Grows h (g.loadAbove h (dir ds ++ e)).1 := by
  rw [loadAbove, ancestors_dir_append (fun c hc => (hds c hc).1) he]
  exact grows_loadAll hds knows_nil

end Hierarchy

/-! ## Policies -/

namespace Policy
variable {h : Host} {b : Pathname} {p p' p'' : Policy} {ds : List Text} {name : Text}

/-- What a policy can become on a host: its ignore files grow, if they are consulted. -/
structure Grows (h : Host) (p p' : Policy) : Prop where
  root : p'.root = p.root
  hierarchy : Option.Rel (Hierarchy.Grows h) p.hierarchy p'.hierarchy

theorem Grows.refl (p : Policy) : p.Grows h p := by
  refine ⟨rfl, ?_⟩
  cases p.hierarchy with
  | none => exact .none
  | some g => exact .some .refl

theorem grows_of_hierarchy {g g' : Hierarchy} (hg : p.hierarchy = some g) (hgrows : g.Grows h g') :
    p.Grows h { p with hierarchy := some g' } := by
  refine ⟨rfl, ?_⟩
  rw [hg]
  exact .some hgrows

/-- A policy that has grown has the ignore files that those before have become. -/
theorem Grows.exists_after (hp : p.Grows h p') {g : Hierarchy} (hg : p.hierarchy = some g) :
    ∃ g', p'.hierarchy = some g' ∧ g.Grows h g' := by
  have hrel := hp.hierarchy
  rw [hg] at hrel
  cases hg' : p'.hierarchy with
  | none =>
    rw [hg'] at hrel
    cases hrel
  | some g' =>
    rw [hg'] at hrel
    cases hrel with
    | some hgg => exact ⟨g', rfl, hgg⟩

theorem Grows.exists_before (hp : p.Grows h p') {g' : Hierarchy} (hg' : p'.hierarchy = some g') :
    ∃ g, p.hierarchy = some g ∧ g.Grows h g' := by
  cases hg : p.hierarchy with
  | none =>
    have hrel := hp.hierarchy
    rw [hg, hg'] at hrel
    cases hrel
  | some g =>
    obtain ⟨_, hsome, hgrows⟩ := hp.exists_after hg
    obtain rfl := Option.some.inj (hsome.symm.trans hg')
    exact ⟨g, rfl, hgrows⟩

theorem Grows.trans (hp : p.Grows h p') (hp' : p'.Grows h p'') : p.Grows h p'' := by
  refine ⟨hp'.root.trans hp.root, ?_⟩
  cases hg'' : p''.hierarchy with
  | none =>
    cases hg : p.hierarchy with
    | none => exact .none
    | some g =>
      obtain ⟨g', hg', -⟩ := hp.exists_after hg
      obtain ⟨_, hsome, -⟩ := hp'.exists_after hg'
      rw [hg''] at hsome
      cases hsome
  | some g'' =>
    obtain ⟨g', hg', hgrows'⟩ := hp'.exists_before hg''
    obtain ⟨g, hg, hgrows⟩ := hp.exists_before hg'
    rw [hg]
    exact .some (hgrows.trans hgrows')

theorem Grows.extends (hp : p.Grows h p') : p.Extends p' := by
  intro es hes g' hg'
  obtain ⟨g, hg, hgrows⟩ := hp.exists_before hg'
  exact (hes g hg).mono hgrows.loaded_subset

theorem Grows.rootedAt (hp : p.Grows h p') (hroot : p.RootedAt b) : p'.RootedAt b := by
  refine ⟨hp.root.trans hroot.root, fun g' hg' => ?_⟩
  obtain ⟨g, hg, hgrows⟩ := hp.exists_before hg'
  exact hgrows.root_eq.trans (hroot.hierarchy g hg)

/-- **Loading a directory behind those above it makes a policy grow.** -/
theorem grows_of_load (hds : ∀ d ∈ ds, IsProper d) (hk : p.Knows ds.dropLast)
    {present : Option Bool}
    (hpresent : present = some false →
      ∀ g, p.hierarchy = some g → g.rulesIn h (dir ds) = .ok [])
    (hload : p.load h (dir ds) present = .ok p') : p.Grows h p' ∧ p'.Knows ds := by
  rw [load] at hload
  cases hg : p.hierarchy with
  | none =>
    rw [hg] at hload
    cases hload
    refine ⟨.refl p, fun g hsome => ?_⟩
    rw [hg] at hsome
    cases hsome
  | some g =>
    rw [hg] at hload
    obtain ⟨g', hg', rfl⟩ := map_eq_ok_iff.mp hload
    have habove : ∀ a ∈ ancestors (dir ds), a ∈ g.loaded := by
      rw [ancestors_dir fun d hd => (hds d hd).1]
      exact hk g hg
    obtain ⟨hgrows, hmem⟩ := Hierarchy.grows_of_load hds habove (fun e => hpresent e g hg) hg'
    refine ⟨grows_of_hierarchy hg hgrows, ?_⟩
    rintro _ ⟨⟩
    rcases List.eq_nil_or_concat ds with rfl | ⟨es, e, rfl⟩
    · exact Hierarchy.knows_nil
    · rw [List.concat_eq_append, List.dropLast_concat] at hk
      rw [List.concat_eq_append] at hmem ⊢
      exact Hierarchy.knows_concat_iff.mpr ⟨(hk g hg).mono hgrows.loaded_subset, hmem⟩

/-- **Loading the directories above a path makes a policy grow**, also where it fails. -/
theorem grows_loadAbove (hds : ∀ d ∈ ds, IsProper d) (hname : IsProper name) (p : Policy) :
    p.Grows h (p.loadAbove h (dir ds ++ name)).1 := by
  rw [loadAbove]
  cases hg : p.hierarchy with
  | none => exact .refl p
  | some g =>
    exact grows_of_hierarchy hg (g.grows_loadAbove hds hname.1)

end Policy

/-! ## Iterations -/

/-- A frame for a directory below the root that is loaded, with names in it that lead down. -/
structure Frame.Within (b : Pathname) (p : Policy) (f : Frame) (ds : List Text) : Prop where
  isProper : ∀ d ∈ ds, IsProper d
  directory : f.directory = b.dirText ++ dir ds
  relative : f.relative = dir ds
  pending : ∀ n ∈ f.pending, IsProper n
  knows : p.Knows ds

/-- A stretch of an iteration makes a policy grow, and stops within directories that are loaded. -/
structure Progress.Grows (h : Host) (b : Pathname) (p : Policy) (q : Progress) : Prop where
  policy : p.Grows h q.policy
  frames : ∀ frames, q.halt = .paused frames → ∀ f ∈ frames, ∃ ds, f.Within b q.policy ds

theorem Frame.Within.mono {b : Pathname} {p p' : Policy} {f : Frame} {ds : List Text}
    (hf : f.Within b p ds) (hle : p.Extends p') : f.Within b p' ds :=
  { hf with knows := hle ds hf.knows }

namespace Walk
variable {h : Host} {c : Config} {b : Pathname} {p p' : Policy} {f : Frame} {ds : List Text}
  {above : List Nat} {wanted : Option Nat} {q : Progress} {outer : List Frame}

/-- A stretch that leaves the policy as it is and keeps no frames. -/
theorem grows_rest {halt : Halt} (hhalt : ∀ frames, halt ≠ .paused frames) {found : List Text} :
    Progress.Grows h b p ⟨found, p, wanted, halt⟩ :=
  ⟨.refl p, fun frames e => absurd e (hhalt frames)⟩

/-- **Stretches in a row make a policy grow**, if each of them does. -/
theorem grows_andThen {next : Policy → Option Nat → Progress} (hq : q.Grows h b p)
    (houter : ∀ f ∈ outer, ∃ ds, f.Within b p ds)
    (hnext : ∀ p' w, p.Grows h p' → (next p' w).Grows h b p') :
    (andThen q outer next).Grows h b p := by
  rw [andThen]
  cases hhalt : q.halt with
  | finished =>
    have hn := hnext q.policy q.wanted hq.policy
    exact ⟨hq.policy.trans hn.policy, hn.frames⟩
  | failed e => exact hq
  | paused frames =>
    refine ⟨hq.policy, ?_⟩
    rintro _ ⟨⟩ f hf
    rcases List.mem_append.mp hf with hf | hf
    · exact hq.frames frames hhalt f hf
    · obtain ⟨ds, hds⟩ := houter f hf
      exact ⟨ds, hds.mono hq.policy.extends⟩

/-- **Scanning a directory makes a policy grow**, if entering one below does. -/
theorem scan_grows {enter : Text → Text → List Nat → Policy → Option Nat → Progress}
    (henter : ∀ name, IsProper name → ∀ p w, p.RootedAt b → p.Knows ds →
      (enter (b.dirText ++ dir (ds ++ [name])) (dir (ds ++ [name])) f.inodes p w).Grows h b p)
    (hp : p.RootedAt b) (hf : f.Within b p ds) {names : List Text}
    (hnames : ∀ n ∈ names, IsProper n) : (scan h c enter f names p wanted).Grows h b p := by
  induction names generalizing p wanted with
  | nil => exact grows_rest (by simp)
  | cons name names ih =>
    have hname : IsProper name := hnames name List.mem_cons_self
    have htail : ∀ n ∈ names, IsProper n := fun n hn => hnames n (List.mem_cons_of_mem name hn)
    have hrest : ∀ p' w, p.Grows h p' → (scan h c enter f names p' w).Grows h b p' :=
      fun p' w hle => ih (hle.rootedAt hp) (hf.mono hle.extends) htail
    rw [scan]
    split
    · refine ⟨.refl p, ?_⟩
      rintro _ ⟨⟩ g hg
      rw [List.mem_singleton.mp hg]
      exact ⟨ds, { hf with pending := hnames }⟩
    · split
      · exact grows_rest (by simp)
      · exact hrest p wanted (.refl p)
      · exact grows_andThen (grows_rest (by simp)) (fun g hg => absurd hg List.not_mem_nil) hrest
      · refine grows_andThen ?_ (fun g hg => ?_) hrest
        · have hdirectory : f.directory ++ name ++ ['/'] = b.dirText ++ dir (ds ++ [name]) := by
            rw [hf.directory, dir_concat]
            simp
          rw [hdirectory, hf.relative, ← dir_concat]
          exact henter name hname p wanted hp hf.knows
        · rw [List.mem_singleton.mp hg]
          exact ⟨ds, { hf with pending := htail }⟩

/-- **Opening a directory loads its ignore file.**  The file is taken for absent where the list of
the directory has none, and there none can be read. -/
theorem grows_openDirectory (hfs : h.files.Proper) (hb : b.IsNormal)
    (hds : ∀ d ∈ ds, IsProper d) (hp : p.RootedAt b) (hk : p.Knows ds.dropLast)
    (hopen : openDirectory h c (b.dirText ++ dir ds) (dir ds) above p = .ok (some (f, p'))) :
    p.Grows h p' ∧ f.Within b p' ds := by
  obtain ⟨inodes, names, hcontents, hload, rfl⟩ := exists_of_openDirectory hopen
  have hlist := (contents_eq_ok_some_iff.mp hcontents).2
  have habsent : some (names.contains ignoreFileName) = some false →
      ∀ g, p.hierarchy = some g → g.rulesIn h (dir ds) = .ok [] := by
    intro hnot g hg
    apply Hierarchy.rulesIn_of_not_mem hb (hp.hierarchy g hg) hds hlist
    intro hmem
    rw [List.contains_iff_mem.mpr hmem] at hnot
    cases hnot
  obtain ⟨hgrows, hk'⟩ := Policy.grows_of_load hds hk habsent hload
  obtain ⟨l, rfl⟩ := FileSystem.exists_childrenAt_of_list hlist
  exact ⟨hgrows, hds, rfl, rfl, fun n hn => hfs.isProper_of_mem_childrenAt hn, hk'⟩

/-- **Entering a directory makes a policy grow**, if those above it are loaded. -/
theorem enter_grows (hfs : h.files.Proper) (hb : b.IsNormal) (room : Nat)
    (hds : ∀ d ∈ ds, IsProper d) (hp : p.RootedAt b) (hk : p.Knows ds.dropLast) :
    (enter h c room (b.dirText ++ dir ds) (dir ds) above p wanted).Grows h b p := by
  induction room generalizing ds above p wanted with
  | zero => exact grows_rest (by simp)
  | succ room ih =>
    rw [enter]
    split
    · exact grows_rest (by simp)
    · exact grows_rest (by simp)
    · rename_i f p' hopen
      obtain ⟨hgrows, hf⟩ := grows_openDirectory hfs hb hds hp hk hopen
      have hscan : (scan h c (enter h c room) f f.pending p' wanted).Grows h b p' := by
        refine scan_grows (fun name hname p'' w hp'' hk'' => ?_) (hgrows.rootedAt hp) hf hf.pending
        refine ih (List.forall_mem_append.mpr ⟨hds, List.forall_mem_singleton.mpr hname⟩) hp'' ?_
        rwa [List.dropLast_concat]
      exact ⟨hgrows.trans hscan.policy, hscan.frames⟩

/-- **An iteration that goes on makes a policy grow.** -/
theorem resume_grows (hfs : h.files.Proper) (hb : b.IsNormal) (hp : p.RootedAt b)
    {frames : List Frame} (hframes : ∀ f ∈ frames, ∃ ds, f.Within b p ds) :
    (resume h c frames p wanted).Grows h b p := by
  induction frames generalizing p wanted with
  | nil => exact grows_rest (by simp)
  | cons f outer ih =>
    obtain ⟨ds, hf⟩ := hframes f List.mem_cons_self
    have houter : ∀ g ∈ outer, ∃ ds, g.Within b p ds :=
      fun g hg => hframes g (List.mem_cons_of_mem f hg)
    rw [resume]
    refine grows_andThen (scan_grows (fun name hname p' w hp' hk' => ?_) hp hf hf.pending) houter
      (fun p' w hle => ih (hle.rootedAt hp) fun g hg => ?_)
    · refine enter_grows hfs hb _
        (List.forall_mem_append.mpr ⟨hf.isProper, List.forall_mem_singleton.mpr hname⟩) hp' ?_
      rwa [List.dropLast_concat]
    · obtain ⟨es, hg⟩ := houter g hg
      exact ⟨es, hg.mono hle.extends⟩

/-- **An iteration that is advanced makes a policy grow**, wherever it goes on from. -/
theorem advance_grows (hfs : h.files.Proper) (hb : b.IsNormal) (hp : p.RootedAt b) {w : Walk}
    (hw : ∀ frames, w = .inside frames → ∀ f ∈ frames, ∃ ds, f.Within b p ds) :
    (w.advance h c b.dirText p wanted).Grows h b p := by
  cases w with
  | inside frames => exact resume_grows hfs hb hp (hw frames rfl)
  | unstarted =>
    have hroot : b.dirText = b.dirText ++ dir [] := (List.append_nil _).symm
    rw [advance, hroot]
    exact enter_grows hfs hb _ (fun d hd => absurd hd List.not_mem_nil) hp Policy.knows_nil

end Walk

/-! ## Filters -/

namespace Filter
variable {h : Host} {f : Filter}

/-- **A question makes the policy of a filter grow**, also where it ends with an error. -/
theorem ask_grows (hb : f.resolver.base.IsNormal) (q : Query) :
    f.policy.Grows h (f.ask h q).1.policy := by
  rw [ask]
  cases hrel : f.resolver.relative? h.homes q.path with
  | error e => exact .refl _
  | ok found =>
    cases found with
    | none => exact .refl _
    | some relative =>
      obtain ⟨ds, name, hds, hname, rfl⟩ := Resolver.exists_dir_of_relative? hb hrel
      show f.policy.Grows h (f.decideBelow h (dir ds ++ name) q).1.policy
      rw [decideBelow]
      cases f.probe h (f.root ++ (dir ds ++ name)) q with
      | error e => exact .refl _
      | ok found =>
        simp only
        split
        · exact .refl _
        split
        · exact .refl _
        · exact Policy.grows_loadAbove hds hname f.policy

/-- **An iteration that is advanced makes the policy of a filter grow**, also where it ends with an
error, and it stops within directories that are loaded. -/
theorem advance_grows (hfs : h.files.Proper) (hb : f.resolver.base.IsNormal)
    (hp : f.policy.RootedAt f.resolver.base) {w : Walk}
    (hw : ∀ frames, w = .inside frames →
      ∀ g ∈ frames, ∃ ds, g.Within f.resolver.base f.policy ds) (wanted : Option Nat) :
    f.policy.Grows h (f.advance h wanted w).1.policy ∧
      ∀ frames, (f.advance h wanted w).2.walk = .inside frames →
        ∀ g ∈ frames, ∃ ds, g.Within f.resolver.base (f.advance h wanted w).1.policy ds := by
  have hq : (w.advance h f.config f.root f.policy wanted).Grows h f.resolver.base f.policy := by
    rw [root_eq_dirText hb]
    exact Walk.advance_grows hfs hb hp hw
  rw [advance]
  split
  · exact ⟨.refl _, hw⟩
  · simp only
    cases hhalt : (w.advance h f.config f.root f.policy wanted).halt with
    | finished | failed =>
      refine ⟨hq.policy, ?_⟩
      rintro _ ⟨⟩ g hg
      cases hg
    | paused frames =>
      refine ⟨hq.policy, ?_⟩
      rintro _ ⟨⟩
      exact hq.frames frames hhalt

end Filter
end PathFilter
