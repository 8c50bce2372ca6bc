import PathFilter.Policy
import PathFilter.Proofs.HostAccess

/-! # Rules of nested ignore files

The ignore files of a hierarchy are loaded in an order that depends on all that has been asked
before, and later rules win.  What is decided about a path depends on none of this, for two
reasons.

* **A rule of a nested ignore file applies below its directory only** (`prefix_of_appliesTo`), so
  of all loaded files only those on the way down to a path matter for it.
* **The files on the way down to a directory are loaded in their order on that way**, each after
  those above it (`Hierarchy.Coherent`).  Loading keeps this up (`Coherent.load`), whatever else
  has been loaded in between.

So once the files above a path are loaded, all lists say of it what they say with these files
alone (`Coherent.verdict_eq`).
-/

namespace PathFilter
open PathFilter.Path

/-! ## Where rules apply -/

namespace Rule

/-- A rule that applies to a candidate has a root that the candidate is below. -/
theorem exists_root_of_appliesTo {r : Rule} {c : Candidate} (h : r.appliesTo c = true) :
    ∃ root rel, r.root? = some root ∧ rel ≠ [] ∧ c.path = root ++ rel := by
  have hbelow : ∀ {root : Text}, (c.below? root).isSome = true →
      ∃ rel, rel ≠ [] ∧ c.path = root ++ rel := by
    intro root hsome
    obtain ⟨rel, hrel⟩ := Option.isSome_iff_exists.mp hsome
    exact ⟨rel, below?_eq_some_iff.mp hrel⟩
  cases r with
  | path r =>
    obtain ⟨rel, hrel⟩ := hbelow (Option.isSome_of_any h)
    exact ⟨r.root, rel, rfl, hrel⟩
  | interpreter r =>
    rw [appliesTo, Bool.and_eq_true] at h
    obtain ⟨rel, hrel⟩ := hbelow h.1
    exact ⟨r.root, rel, rfl, hrel⟩
  | unmatchable line negated => cases h

/-- The rule on a line is relative to the directory that it is read for. -/
theorem root?_of_ofLine? {root line : Text} {allow : Bool} {r : Rule}
    (h : ofLine? root allow line = some r) : ∀ d, r.root? = some d → d = slashed root := by
  rw [ofLine?, Option.map_eq_some_iff] at h
  obtain ⟨l, -, rfl⟩ := h
  cases l with
  | interpreter negated name =>
    rw [ofPattern]
    split <;> rintro d ⟨⟩
    rfl
  | path negated body =>
    rw [ofPattern]
    split <;> rintro d ⟨⟩
    rfl

/-- Only the rule for an interpreter looks at the first line of a candidate. -/
theorem appliesTo_eq_of_not_readsFirstLine {r : Rule} (h : r.readsFirstLine = false)
    (path : Text) (isDir : Bool) (s t : Option Text) :
    r.appliesTo ⟨path, isDir, s⟩ = r.appliesTo ⟨path, isDir, t⟩ := by
  cases r with
  | path r => rfl
  | interpreter r => cases h
  | unmatchable line negated => rfl

end Rule

/-! ## What lists say -/

namespace RuleList

theorem opinion_ne_noOpinion (allow : Bool) (r : Rule) : opinion allow r ≠ .noOpinion := by
  rw [opinion]
  split <;> simp

theorem opinion_true (r : Rule) : opinion true r = if r.negated then .denied else .allowed := by
  rw [opinion]
  cases r.negated <;> rfl

/-- The last rule decides if it applies. -/
theorem lastOpinion_concat (allow : Bool) (c : Candidate) (rules : List Rule) (r : Rule) :
    lastOpinion allow c (rules ++ [r]) =
      if r.appliesTo c then opinion allow r else lastOpinion allow c rules := by
  rw [lastOpinion, List.foldl_concat, ← lastOpinion]

/-- Only the rules that apply to a candidate make an opinion of it. -/
theorem lastOpinion_filter (allow : Bool) (c : Candidate) (rules : List Rule) :
    lastOpinion allow c (rules.filter (·.appliesTo c)) = lastOpinion allow c rules := by
  rw [lastOpinion, lastOpinion, List.foldl_filter]
  congr 1
  funext v r
  by_cases h : r.appliesTo c = true
  · rw [if_pos h]
  · rw [if_neg h, if_neg h]

/-- Ignore lists that have the same rules for a candidate say the same of it. -/
theorem verdict_eq_of_filter_eq {c : Candidate} {rules rules' : List Rule}
    (h : rules.filter (·.appliesTo c) = rules'.filter (·.appliesTo c)) :
    verdict ⟨rules, false⟩ c = verdict ⟨rules', false⟩ c := by
  have hopinion : lastOpinion false c rules = lastOpinion false c rules' := by
    rw [← lastOpinion_filter, h, lastOpinion_filter]
  rw [verdict, verdict, hopinion]
  cases lastOpinion false c rules' <;> simp

/-- A list whose rules apply to a file alike says the same of it, whatever its first line. -/
theorem verdict_eq_of_appliesTo {l : RuleList} {path : Text} {isDir : Bool} {s t : Option Text}
    (happlies : ∀ r ∈ l.rules, r.appliesTo ⟨path, isDir, s⟩ = r.appliesTo ⟨path, isDir, t⟩) :
    l.verdict ⟨path, isDir, s⟩ = l.verdict ⟨path, isDir, t⟩ := by
  have hopinion : lastOpinion l.allow ⟨path, isDir, s⟩ l.rules =
      lastOpinion l.allow ⟨path, isDir, t⟩ l.rules := by
    refine List.foldl_ext _ _ _ (fun v r hr => ?_)
    rw [happlies r hr]
  rw [verdict, verdict, hopinion]
  rfl

/-- A list without rules for interpreters says the same of a file, whatever its first line. -/
theorem verdict_eq_of_not_readsFirstLine {l : RuleList} (h : l.readsFirstLine = false)
    (path : Text) (isDir : Bool) (s t : Option Text) :
    l.verdict ⟨path, isDir, s⟩ = l.verdict ⟨path, isDir, t⟩ := by
  refine verdict_eq_of_appliesTo fun r hr => ?_
  refine r.appliesTo_eq_of_not_readsFirstLine ?_ path isDir s t
  cases hreads : r.readsFirstLine with
  | false => rfl
  | true => rw [readsFirstLine, List.any_eq_true.mpr ⟨r, hr, hreads⟩] at h; cases h

end RuleList

/-! ## Files of sources -/

namespace Pathname
variable {b : Pathname} {name : Text}

/-- The path of a source that is in normal form is taken as it stands. -/
theorem IsNormal.pathFrom_dirText_append (hb : b.IsNormal) (hname : IsProper name) (h : Host)
    (dir : Text) : Source.pathFrom h dir (b.dirText ++ name) = b.dirText ++ name := by
  have hhead := hb.head?_dirText_append name
  rw [Source.pathFrom, Host.expand_of_head? hhead, join_of_head? hhead,
    Host.absolute_of_head? hhead]
  exact hb.normalize_dirText_append hname

/-- A directory in normal form that a source gives is taken as it stands. -/
theorem IsNormal.slashed_pathFrom_dirText (hb : b.IsNormal) (h : Host) (dir : Text) :
    slashed (Source.pathFrom h dir b.dirText) = b.dirText := by
  have hhead := hb.head?_dirText
  rw [Source.pathFrom, Host.expand_of_head? hhead, join_of_head? hhead,
    Host.absolute_of_head? hhead, Path.normalize, hb.ofText_dirText, hb.normalize_eq,
    hb.slashed_toText]

end Pathname

/-! ## Hierarchies -/

/-- The name of an ignore file is one that leads down. -/
theorem isProper_ignoreFileName : IsProper ignoreFileName := by
  decide

namespace Hierarchy
variable {h : Host} {b : Pathname} {g g₀ : Hierarchy} {ds : List Text} {d : Text}

/-- The rules of the ignore file in a directory; none where it cannot be read. -/
def nestedRules (h : Host) (g : Hierarchy) (dir : Text) : List Rule :=
  (g.rulesIn h dir).toOption.getD []

/-- The hierarchy with the ignore files of the directories on the way down loaded, and no
others. -/
def along (h : Host) (g : Hierarchy) (ds : List Text) : Hierarchy :=
  { g with loads := (descend [] ds).map fun dir => (dir, g.nestedRules h dir) }

/-- The ignore files of all directories on the way down are loaded. -/
def Knows (g : Hierarchy) (ds : List Text) : Prop :=
  ∀ dir ∈ descend [] ds, dir ∈ g.loaded

/-- What a hierarchy has become of the one it began as: it has the same rules from the beginning,
what it has loaded are directories below its root, and those on the way down to any directory are
the first ones on this way, in their order. -/
structure Coherent (h : Host) (g₀ g : Hierarchy) : Prop where
  root : g.root = g₀.root
  seed : g.seed = g₀.seed
  named : ∀ e ∈ g.loads, ∃ es, es ≠ [] ∧ (∀ d ∈ es, IsProper d) ∧ e.1 = dir es
  chain : ∀ ds, (∀ d ∈ ds, IsProper d) → ∃ as, as <+: ds ∧
    g.loads.filter (·.1 ∈ descend [] ds) = (g₀.along h as).loads

/-! ### The ignore file of a directory -/

/-- The ignore file of a directory is found in that directory. -/
theorem ignoreFile_dir (hb : b.IsNormal) (hg : g.root = b.dirText) (hds : ∀ d ∈ ds, IsProper d) :
    g.ignoreFile h (dir ds) =
      (b.into ds).dirText ++ ignoreFileName := by
  have hnormal := hb.into hds
  rw [ignoreFile, hg, hb.join_dirText (head?_dir_ne (fun d hd => (hds d hd).1)),
    ← Pathname.dirText_into, hnormal.join_dirText (by decide)]
  exact hnormal.pathFrom_dirText_append isProper_ignoreFileName h b.dirText

/-- The rules of a nested ignore file are relative to its directory. -/
theorem root?_of_mem_nestedRules (hb : b.IsNormal) (hg : g.root = b.dirText)
    (hds : ∀ d ∈ ds, IsProper d) {r : Rule} (hr : r ∈ g.nestedRules h (dir ds)) {root : Text}
    (hroot : r.root? = some root) : root = b.dirText ++ dir ds := by
  have hnormal := hb.into hds
  rw [nestedRules] at hr
  cases hrules : g.rulesIn h (dir ds) with
  | error e =>
    rw [hrules] at hr
    cases hr
  | ok rules =>
    rw [hrules] at hr
    obtain ⟨lines, -, rfl⟩ := map_eq_ok_iff.mp hrules
    obtain ⟨line, -, hline⟩ := List.mem_filterMap.mp hr
    rw [Rule.root?_of_ofLine? hline root hroot, ignoreFile_dir hb hg hds,
      hnormal.slashed_parent isProper_ignoreFileName.1, slashed_of_endsIn hnormal.endsIn_dirText,
      Pathname.dirText_into]

theorem rulesIn_eq (hs : h.Sound) (dir : Text) : g.rulesIn h dir = .ok (g.nestedRules h dir) := by
  obtain ⟨lines, hlines⟩ := Host.exists_readLines_eq hs.mild (g.ignoreFile h dir)
  rw [nestedRules, rulesIn, hlines]
  rfl

/-- A directory whose list has no ignore file has no rules. -/
theorem rulesIn_of_not_mem (hb : b.IsNormal) (hg : g.root = b.dirText)
    (hds : ∀ d ∈ ds, IsProper d) {names : List Text}
    (hlist : h.list (b.dirText ++ dir ds) = .ok names) (hmem : ignoreFileName ∉ names) :
    g.rulesIn h (dir ds) = .ok [] := by
  rw [← Pathname.dirText_into] at hlist
  have hlines := Host.readLines_of_not_mem (hb.into hds) isProper_ignoreFileName hlist hmem
  rw [rulesIn, ignoreFile_dir hb hg hds, hlines]
  rfl

theorem nestedRules_of_not_mem (hb : b.IsNormal) (hg : g.root = b.dirText)
    (hds : ∀ d ∈ ds, IsProper d) {names : List Text}
    (hlist : h.list (b.dirText ++ dir ds) = .ok names) (hmem : ignoreFileName ∉ names) :
    g.nestedRules h (dir ds) = [] := by
  rw [nestedRules, rulesIn_of_not_mem hb hg hds hlist hmem]
  rfl

theorem nestedRules_congr {g' : Hierarchy} (hroot : g.root = g'.root) (dir : Text) :
    g.nestedRules h dir = g'.nestedRules h dir := by
  rw [nestedRules, nestedRules, rulesIn, rulesIn, ignoreFile, ignoreFile, hroot]

/-! ### What is loaded -/

theorem mem_loads_along {e : Text × List Rule} : e ∈ (g.along h ds).loads ↔
    ∃ as, as ≠ [] ∧ as <+: ds ∧ e = (dir as, g.nestedRules h (dir as)) := by
  rw [along, List.mem_map]
  constructor
  · rintro ⟨_, hdir, rfl⟩
    obtain ⟨as, hne, hp, rfl⟩ := mem_descend_iff.mp hdir
    exact ⟨as, hne, hp, rfl⟩
  · rintro ⟨as, hne, hp, rfl⟩
    exact ⟨dir as, mem_descend_iff.mpr ⟨as, hne, hp, rfl⟩, rfl⟩

theorem loads_along_concat (ds : List Text) (d : Text) : (g.along h (ds ++ [d])).loads =
    (g.along h ds).loads ++ [(dir (ds ++ [d]), g.nestedRules h (dir (ds ++ [d])))] := by
  rw [along, descend_concat, List.map_append]
  rfl

theorem knows_nil : g.Knows [] := fun _ h => absurd h List.not_mem_nil

theorem knows_concat_iff : g.Knows (ds ++ [d]) ↔ g.Knows ds ∧ dir (ds ++ [d]) ∈ g.loaded := by
  rw [Knows, descend_concat]
  constructor
  · intro hk
    exact ⟨fun e he => hk e (List.mem_append_left _ he),
      hk _ (List.mem_append_right _ (List.mem_singleton_self _))⟩
  · rintro ⟨hk, hd⟩ e he
    rcases List.mem_append.mp he with he | he
    · exact hk e he
    · exact List.mem_singleton.mp he ▸ hd

theorem Knows.of_initial {as : List Text} (hk : g.Knows ds) (hp : as <+: ds) : g.Knows as := by
  intro e he
  obtain ⟨bs, hne, hbs, rfl⟩ := mem_descend_iff.mp he
  exact hk _ (mem_descend_iff.mpr ⟨bs, hne, hbs.trans hp, rfl⟩)

theorem Knows.mono {g' : Hierarchy} (hk : g.Knows ds) (hle : g.loaded ⊆ g'.loaded) :
    g'.Knows ds :=
  fun e he => hle (hk e he)

/-- A directory below the root is loaded if its ignore file is among the loads. -/
theorem mem_loaded_dir_iff (hne : ds ≠ []) :
    dir ds ∈ g.loaded ↔ ∃ e ∈ g.loads, e.1 = dir ds := by
  have hdir : dir ds ≠ [] := by
    obtain ⟨d, ds, rfl⟩ := List.exists_cons_of_ne_nil hne
    simp
  rw [loaded, List.mem_cons, List.mem_map]
  exact or_iff_right hdir

/-- A hierarchy that has loaded nothing yet is coherent. -/
theorem Coherent.refl (hg : g.loads = []) : Coherent h g g := by
  refine ⟨rfl, rfl, ?_, ?_⟩
  · rw [hg]
    exact fun e he => absurd he List.not_mem_nil
  · intro ds _
    refine ⟨[], List.nil_prefix, ?_⟩
    rw [hg]
    rfl

/-- Where the loads on the way down are those of an initial run of names, exactly its directories
are loaded. -/
theorem mem_loaded_iff_of_filter_eq {as cs : List Text} (hds : ∀ d ∈ ds, IsProper d)
    (hp : as <+: ds) (heq : g.loads.filter (·.1 ∈ descend [] ds) = (g₀.along h as).loads)
    (hcs : cs <+: ds) (hne : cs ≠ []) : dir cs ∈ g.loaded ↔ cs <+: as := by
  have hnames : ∀ {es : List Text}, es <+: ds → ∀ e ∈ es, e.IsName :=
    fun hes e he => (hds e (hes.subset he)).1
  have hdir : dir cs ∈ descend [] ds := mem_descend_iff.mpr ⟨cs, hne, hcs, rfl⟩
  rw [mem_loaded_dir_iff hne]
  constructor
  · rintro ⟨e, he, hed⟩
    have hmem : e ∈ (g₀.along h as).loads := by
      rw [← heq]
      exact List.mem_filter.mpr ⟨he, decide_eq_true (hed ▸ hdir)⟩
    obtain ⟨bs, -, hbs, rfl⟩ := mem_loads_along.mp hmem
    rw [dir_inj (hnames (hbs.trans hp)) (hnames hcs) hed] at hbs
    exact hbs
  · intro hall
    have hmem : (dir cs, g₀.nestedRules h (dir cs)) ∈ (g₀.along h as).loads :=
      mem_loads_along.mpr ⟨cs, hne, hall, rfl⟩
    rw [← heq] at hmem
    exact ⟨_, (List.mem_filter.mp hmem).1, rfl⟩

theorem Knows.mem_loaded (hk : g.Knows ds) (hne : ds ≠ []) : dir ds ∈ g.loaded :=
  hk _ (mem_descend_iff.mpr ⟨ds, hne, List.prefix_rfl, rfl⟩)

/-- The ignore files on the way down to a directory that is loaded are loaded in their order. -/
theorem Coherent.chain_of_knows (hg : Coherent h g₀ g) (hds : ∀ d ∈ ds, IsProper d)
    (hk : g.Knows ds) : g.loads.filter (·.1 ∈ descend [] ds) = (g₀.along h ds).loads := by
  obtain ⟨as, hp, heq⟩ := hg.chain ds hds
  have hall : ds <+: as := by
    by_cases hne : ds = []
    · rw [hne]
      exact List.nil_prefix
    · exact (mem_loaded_iff_of_filter_eq hds hp heq List.prefix_rfl hne).mp (hk.mem_loaded hne)
  rw [heq, hp.eq_of_length (Nat.le_antisymm hp.length_le hall.length_le)]

/-- What is loaded from a directory are the rules of its ignore file. -/
theorem Coherent.eq_of_mem_loads (hg : Coherent h g₀ g) {e : Text × List Rule}
    (he : e ∈ g.loads) :
    ∃ es, es ≠ [] ∧ (∀ d ∈ es, IsProper d) ∧ e = (dir es, g₀.nestedRules h (dir es)) := by
  obtain ⟨es, hne, hes, hdir⟩ := hg.named e he
  obtain ⟨as, hp, heq⟩ := hg.chain es hes
  have hmem : e ∈ (g₀.along h as).loads := by
    rw [← heq]
    exact List.mem_filter.mpr ⟨he, decide_eq_true
      (hdir ▸ mem_descend_iff.mpr ⟨es, hne, List.prefix_rfl, rfl⟩)⟩
  obtain ⟨bs, hbs, -, rfl⟩ := mem_loads_along.mp hmem
  exact ⟨es, hne, hes, by rw [← show dir bs = dir es from hdir]⟩

/-! ### Loading -/

/-- Putting the ignore file of a directory behind those of the directories above it keeps the
hierarchy coherent. -/
theorem Coherent.append (hg : Coherent h g₀ g) (hds : ∀ c ∈ ds ++ [d], IsProper c)
    (hk : g.Knows ds) (hnew : dir (ds ++ [d]) ∉ g.loaded) :
    Coherent h g₀ { g with
      loads := g.loads ++ [(dir (ds ++ [d]), g₀.nestedRules h (dir (ds ++ [d])))] } := by
  refine ⟨hg.root, hg.seed, ?_, fun es hes => ?_⟩
  · intro e he
    rcases List.mem_append.mp he with he | he
    · exact hg.named e he
    · rw [List.mem_singleton.mp he]
      exact ⟨ds ++ [d], by simp, hds, rfl⟩
  obtain ⟨as, hp, heq⟩ := hg.chain es hes
  rw [List.filter_append, heq]
  by_cases hon : ds ++ [d] <+: es
  · -- the way to `es` goes through the directory, and it has been loaded down to the one above
    have hdsp : ds <+: es := (List.prefix_append ds [d]).trans hon
    have hdas : ds <+: as := by
      by_cases hne : ds = []
      · rw [hne]
        exact List.nil_prefix
      · exact (mem_loaded_iff_of_filter_eq hes hp heq hdsp hne).mp (hk.mem_loaded hne)
    have hnot : ¬ ds ++ [d] <+: as := fun hmem =>
      hnew ((mem_loaded_iff_of_filter_eq hes hp heq hon (by simp)).mpr hmem)
    obtain rfl : ds = as := by
      refine hdas.eq_of_length (Nat.le_antisymm hdas.length_le (Nat.le_of_not_lt fun hlt => ?_))
      refine hnot (List.prefix_of_prefix_length_le hon hp ?_)
      rw [List.length_append]
      exact hlt
    refine ⟨ds ++ [d], hon, ?_⟩
    rw [loads_along_concat, List.filter_cons_of_pos, List.filter_nil]
    exact decide_eq_true (mem_descend_iff.mpr ⟨_, by simp, hon, rfl⟩)
  · refine ⟨as, hp, ?_⟩
    rw [List.filter_cons_of_neg, List.filter_nil, List.append_nil]
    intro hmem
    obtain ⟨bs, -, hbs, hdir⟩ := mem_descend_iff.mp (of_decide_eq_true hmem)
    apply hon
    rw [dir_inj (fun c hc => (hds c hc).1) (fun c hc => (hes c (hbs.subset hc)).1) hdir]
    exact hbs

/-- **Loading the ignore file of a directory behind those above it keeps the hierarchy
coherent.** -/
theorem Coherent.load (hg : Coherent h g₀ g) (hs : h.Sound) (hds : ∀ c ∈ ds ++ [d], IsProper c)
    (hk : g.Knows ds) {present : Option Bool}
    (hpresent : present = some false → g₀.nestedRules h (dir (ds ++ [d])) = []) :
    ∃ g', g.load h (dir (ds ++ [d])) present = .ok g' ∧ Coherent h g₀ g' ∧
      g'.Knows (ds ++ [d]) ∧ g.loaded ⊆ g'.loaded := by
  rw [Hierarchy.load]
  by_cases hmem : dir (ds ++ [d]) ∈ g.loaded
  · rw [if_pos (List.contains_iff_mem.mpr hmem)]
    exact ⟨g, rfl, hg, knows_concat_iff.mpr ⟨hk, hmem⟩, List.Subset.refl _⟩
  · rw [if_neg (fun e => hmem (List.contains_iff_mem.mp e))]
    have hle : g.loaded ⊆ Hierarchy.loaded { g with
        loads := g.loads ++ [(dir (ds ++ [d]), g₀.nestedRules h (dir (ds ++ [d])))] } := by
      intro e he
      rw [loaded, List.map_append]
      exact (List.mem_cons.mp he).elim (fun e => e ▸ List.mem_cons_self)
        (fun he => List.mem_cons_of_mem _ (List.mem_append_left _ he))
    refine ⟨_, ?_, hg.append hds hk hmem, knows_concat_iff.mpr ⟨hk.mono hle, ?_⟩, hle⟩
    · split
      · rename_i hp
        rw [hpresent hp]
      · rw [rulesIn_eq hs, nestedRules_congr hg.root]
        rfl
    · exact (mem_loaded_dir_iff (by simp)).mpr ⟨_, List.mem_append_right _ List.mem_cons_self, rfl⟩

/-- Loading all directories on a way down, from one that is loaded on. -/
theorem Coherent.loadAll (hg : Coherent h g₀ g) (hs : h.Sound) {as bs : List Text}
    (hds : ∀ c ∈ as ++ bs, IsProper c) (hk : g.Knows as) :
    ∃ g', g.loadAll h (descend (dir as) bs) = (g', .ok ()) ∧ Coherent h g₀ g' ∧
      g'.Knows (as ++ bs) ∧ g.loaded ⊆ g'.loaded := by
  induction bs generalizing as g with
  | nil => exact ⟨g, rfl, hg, by rwa [List.append_nil], List.Subset.refl _⟩
  | cons d bs ih =>
    have hsplit : as ++ d :: bs = as ++ [d] ++ bs := by simp
    rw [hsplit] at hds ⊢
    have hnone : (none : Option Bool) = some false →
        g₀.nestedRules h (dir (as ++ [d])) = [] := by simp
    obtain ⟨g₁, hload, hg₁, hk₁, hle₁⟩ :=
      hg.load hs (fun c hc => hds c (List.mem_append_left bs hc)) hk hnone
    obtain ⟨g₂, hall, hg₂, hk₂, hle₂⟩ := ih hg₁ hds hk₁
    refine ⟨g₂, ?_, hg₂, hk₂, fun e he => hle₂ (hle₁ he)⟩
    rw [descend, Hierarchy.loadAll]
    rw [dir_concat] at hload hall
    rw [hload]
    exact hall

/-- **Loading the directories above a path succeeds and keeps the hierarchy coherent.** -/
theorem Coherent.loadAbove (hg : Coherent h g₀ g) (hs : h.Sound) (hds : ∀ c ∈ ds, IsProper c)
    (hd : d.IsName) :
    ∃ g', g.loadAbove h (dir ds ++ d) = (g', .ok ()) ∧ Coherent h g₀ g' ∧ g'.Knows ds ∧
      g.loaded ⊆ g'.loaded := by
  rw [Hierarchy.loadAbove, ancestors_dir_append (fun c hc => (hds c hc).1) hd]
  exact hg.loadAll hs hds knows_nil

/-! ### What is said of a path -/

/-- **A rule of a nested ignore file applies below its directory only.** -/
theorem prefix_of_appliesTo (hb : b.IsNormal) (hg : g.root = b.dirText) {es : List Text}
    (hes : ∀ c ∈ es, IsProper c) {r : Rule} (hr : r ∈ g.nestedRules h (dir es)) {c : Candidate}
    {name : Text} (hds : ∀ c ∈ ds, c.IsName) (hname : name.IsName)
    (hc : c.path = b.dirText ++ dir ds ++ name) (happlies : r.appliesTo c = true) : es <+: ds := by
  obtain ⟨root, rel, hroot, hrel, hpath⟩ := r.exists_root_of_appliesTo happlies
  rw [root?_of_mem_nestedRules hb hg hes hr hroot, hc, List.append_assoc,
    List.append_assoc] at hpath
  exact prefix_of_dir_prefix_append (fun c hc => (hes c hc).1) hds hname
    ⟨rel, (List.append_cancel_left hpath).symm⟩

theorem flatMap_filter_of_eq_nil {α β : Type} {p : α → Bool} {f : α → List β} {l : List α}
    (hf : ∀ a ∈ l, p a = false → f a = []) : (l.filter p).flatMap f = l.flatMap f := by
  induction l with
  | nil => rfl
  | cons a l ih =>
    have htail := ih (fun x hx => hf x (List.mem_cons_of_mem a hx))
    cases hp : p a with
    | true => rw [List.filter_cons_of_pos hp, List.flatMap_cons, List.flatMap_cons, htail]
    | false =>
      rw [List.filter_cons_of_neg (by simp [hp]), List.flatMap_cons, htail,
        hf a List.mem_cons_self hp, List.nil_append]

/-- **Once the directories above a path are loaded, the ignore files say of it what they say with
no others loaded.** -/
theorem Coherent.verdict_eq (hg : Coherent h g₀ g) (hb : b.IsNormal) (hroot : g₀.root = b.dirText)
    (hds : ∀ c ∈ ds, IsProper c) (hk : g.Knows ds) {c : Candidate} {name : Text}
    (hname : name.IsName) (hc : c.path = b.dirText ++ dir ds ++ name) :
    g.toRuleList.verdict c = (g₀.along h ds).toRuleList.verdict c := by
  apply RuleList.verdict_eq_of_filter_eq
  have hloads := hg.chain_of_knows hds hk
  have hseed : (g₀.along h ds).seed = g₀.seed := rfl
  rw [rules, rules, List.filter_append, List.filter_append, hg.seed, hseed, List.filter_flatMap,
    List.filter_flatMap, ← hloads, flatMap_filter_of_eq_nil]
  -- the rules of a directory that is not above the path do not apply to it
  intro e he hout
  obtain ⟨es, hne, hes, rfl⟩ := hg.eq_of_mem_loads he
  refine List.filter_eq_nil_iff.mpr (fun r hr happlies => ?_)
  have hon := prefix_of_appliesTo hb hroot hes hr (fun c hc => (hds c hc).1) hname hc happlies
  exact of_decide_eq_false hout (mem_descend_iff.mpr ⟨es, hne, hon, rfl⟩)

/-- The rules on the way down to a directory that is loaded are among those that are loaded. -/
theorem Coherent.rules_along_subset (hg : Coherent h g₀ g) (hds : ∀ c ∈ ds, IsProper c)
    (hk : g.Knows ds) : (g₀.along h ds).rules ⊆ g.rules := by
  intro r hr
  rw [rules, List.mem_append] at hr ⊢
  rw [hg.seed]
  refine hr.imp id (fun hr => ?_)
  obtain ⟨e, he, hre⟩ := List.mem_flatMap.mp hr
  rw [← hg.chain_of_knows hds hk] at he
  exact List.mem_flatMap.mpr ⟨e, (List.mem_filter.mp he).1, hre⟩

end Hierarchy
end PathFilter
