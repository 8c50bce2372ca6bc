import Mathlib.Data.List.Induction
import PathFilter.Proofs.History

/-! # The ignore file that decides

All ignore files that a filter has loaded make one list of rules, in the order in which they
happened to be loaded, and the last rule that applies to a path decides about it.  Yet the files
have a rank of their own for each path: those of the directories above it, the deepest first, then
that of the root, that of the repository, that for all repositories, and at last the rule for the
version control directory (`Hierarchy.filesFor`).

**The first of these files with a rule that applies decides, by the last such rule in it**
(`Filter.verdict_eq_nearestOpinion`), once the directories above the path are loaded, whatever else
has been loaded, and in whatever order.

* The last rule that applies, of files in a row, is that of the last file with one
  (`RuleList.lastApplying?_flatten`).
* What a hierarchy begins with, and what it loads for a directory, are the rules of the files at
  these places (`Hierarchy.seed_of_create`, `Hierarchy.nestedRules_eq`).
-/

namespace PathFilter
open PathFilter.Path

/-! ## Files in a row -/

namespace RuleList
variable {c : Candidate} {rules : List Rule}

/-- The last rule that applies to a candidate. -/
def lastApplying? (c : Candidate) (rules : List Rule) : Option Rule :=
  rules.reverse.find? (·.appliesTo c)

/-- What the first of some ignore files with a rule that applies to a candidate says of it, by the
last such rule. -/
def nearestOpinion (c : Candidate) (files : List (List Rule)) : Verdict :=
  match files.findSome? (lastApplying? c) with
  | none => .noOpinion
  | some r => if r.negated then .allowed else .denied

theorem lastApplying?_append (c : Candidate) (rules rules' : List Rule) :
    lastApplying? c (rules ++ rules') =
      (lastApplying? c rules').or (lastApplying? c rules) := by
  rw [lastApplying?, List.reverse_append, List.find?_append, ← lastApplying?, ← lastApplying?]

/-- **The last rule that applies, of files in a row, is that of the last file with one.** -/
theorem lastApplying?_flatten (c : Candidate) (files : List (List Rule)) :
    lastApplying? c files.flatten = files.reverse.findSome? (lastApplying? c) := by
  induction files with
  | nil => rfl
  | cons rules files ih =>
    rw [List.flatten_cons, lastApplying?_append, ih, List.reverse_cons, List.findSome?_append,
      List.findSome?_singleton]

theorem lastOpinion_eq_lastApplying? (allow : Bool) : lastOpinion allow c rules =
    match lastApplying? c rules with
    | none => .noOpinion
    | some r => opinion allow r := by
  induction rules using List.reverseRecOn with
  | nil => rfl
  | append_singleton rules r ih =>
    rw [lastOpinion_concat, lastApplying?_append, ih]
    cases hr : r.appliesTo c <;> simp [lastApplying?, hr]

/-- A list says of a candidate what its last rule that applies does, and if there is none, whether
something below may be matched. -/
theorem verdict_eq (l : RuleList) (c : Candidate) : l.verdict c =
    (lastApplying? c l.rules).elim
      (if l.rules.isEmpty || !l.allow || l.rules.any (·.mayMatchWithin c) then .noOpinion
        else .denied)
      (opinion l.allow) := by
  rw [verdict, lastOpinion_eq_lastApplying?]
  cases lastApplying? c l.rules with
  | none => rfl
  | some r =>
    rw [Option.elim_some]
    cases h : opinion l.allow r with
    | noOpinion => exact absurd h (opinion_ne_noOpinion l.allow r)
    | allowed => simp [h]
    | denied => simp [h]

/-- An ignore list put together from files says what the last file with a rule that applies
says. -/
theorem verdict_flatten (c : Candidate) (files : List (List Rule)) :
    verdict ⟨files.flatten, false⟩ c = nearestOpinion c files.reverse := by
  rw [verdict_eq, lastApplying?_flatten, nearestOpinion]
  cases files.reverse.findSome? (lastApplying? c) with
  | none => simp
  | some r => simp [opinion]

end RuleList

/-! ## The files for a path -/

/-- The rules of the ignore file at a path, relative to a directory; a file that cannot be read has
none. -/
def Host.ignoreRules (h : Host) (dir file : Text) : List Rule :=
  ((h.readLines file).toOption.getD []).filterMap (Rule.ofLine? dir false)

namespace Hierarchy
variable {h : Host} {b : Pathname} {g g₀ : Hierarchy} {ds : List Text}

/-- The ignore files that hold for all paths below a root, the nearest one first, each with its
rules: that of the root, that of the repository, that for all repositories, and the rule for the
version control directory. -/
def commonFiles (h : Host) (root globalFile : Text) : List (List Rule) :=
  [h.ignoreRules root (root ++ ignoreFileName),
   h.ignoreRules root (root ++ ".git/info/exclude".toList),
   h.ignoreRules root (Source.pathFrom h root globalFile),
   (Rule.ofLine? ['/'] false ".git".toList).toList]

/-- The ignore files that hold for a path below a root, the nearest one first: those of the
directories above the path, from the deepest up, and those that hold for all paths. -/
def filesFor (h : Host) (root globalFile path : Text) : List (List Rule) :=
  (ancestors path).reverse.map (fun dir =>
    h.ignoreRules (root ++ dir) (root ++ dir ++ ignoreFileName)) ++ commonFiles h root globalFile

/-- What is read for a directory is its ignore file, whose rules are relative to it. -/
theorem rulesIn_dir (hb : b.IsNormal) (hg : g.root = b.dirText) (hds : ∀ d ∈ ds, IsProper d) :
    g.rulesIn h (dir ds) =
      (h.readLines (b.dirText ++ dir ds ++ ignoreFileName)).map
        (·.filterMap (Rule.ofLine? (b.dirText ++ dir ds) false)) := by
  have hnormal := hb.into hds
  rw [rulesIn, ignoreFile_dir hb hg hds, hnormal.slashed_parent isProper_ignoreFileName.1,
    Pathname.dirText_into]

/-- What is loaded for a directory are the rules of its ignore file. -/
theorem nestedRules_eq (hb : b.IsNormal) (hg : g.root = b.dirText) (hds : ∀ d ∈ ds, IsProper d) :
    g.nestedRules h (dir ds) =
      h.ignoreRules (b.dirText ++ dir ds) (b.dirText ++ dir ds ++ ignoreFileName) := by
  rw [nestedRules, rulesIn_dir hb hg hds, Host.ignoreRules]
  cases h.readLines (b.dirText ++ dir ds ++ ignoreFileName) with
  | error e => rfl
  | ok lines => rfl

/-- What is read from a source that is an ignore file for a root are the rules of that file. -/
theorem eq_ignoreRules_of_file (hb : b.IsNormal) {path : Text} {rules : List Rule}
    (hrules : Source.rules h b.dirText { origin := .file path false, root := some b.dirText } =
      .ok rules) :
    rules = h.ignoreRules b.dirText (Source.pathFrom h b.dirText path) := by
  have hgiven : Source.givenRoot h b.dirText
      { origin := .file path false, root := some b.dirText } = some b.dirText := by
    obtain ⟨c, t, ht⟩ : ∃ c t, b.dirText = c :: t :=
      List.exists_cons_of_ne_nil (fun hnil => by simpa [hnil] using hb.head?_dirText)
    rw [Source.givenRoot, ht]
    show some (slashed _) = _
    rw [← ht, hb.slashed_pathFrom_dirText]
  rw [Source.rules, Source.resolve, hgiven] at hrules
  have hread : Except.mapError Failure.access ((h.readLines (Source.pathFrom h b.dirText path)).map
      (·.filterMap (Rule.ofLine? b.dirText false))) = .ok rules := hrules
  obtain ⟨lines, hlines, rfl⟩ := map_eq_ok_iff.mp (mapError_eq_ok_iff.mp hread)
  rw [Host.ignoreRules, hlines]
  rfl

/-- The rule for the version control directory holds everywhere. -/
theorem rules_of_versionControl (h : Host) (root : Text) :
    Source.rules h root { origin := .lines [".git".toList], root := some ['/'] } =
      .ok (Rule.ofLine? ['/'] false ".git".toList).toList := by
  have htop : Pathname.IsNormal ⟨.slash, []⟩ := ⟨Anchor.noConfusion, fun c hc => by cases hc⟩
  have htext : slashed (Source.pathFrom h root ['/']) = ['/'] :=
    htop.slashed_pathFrom_dirText h root
  rw [Source.rules, Source.resolve, Source.givenRoot]
  show Except.ok
    (List.filterMap (Rule.ofLine? (slashed (Source.pathFrom h root ['/'])) false) _) = _
  rw [htext]
  rfl

/-- **A hierarchy begins with the rules of the files that hold for all paths below its root**, the
nearest one last. -/
theorem seed_of_create (hb : b.IsNormal) {given : Option Text} {required : Bool}
    (hg : create h b.dirText given required = .ok g) :
    ∃ file, globalFile h b.dirText given = .ok file ∧
      g.seed = (commonFiles h b.dirText file).reverse.flatten := by
  obtain ⟨file, parts, hfile, hparts, rfl⟩ := exists_of_create hg
  rw [slashed_of_endsIn hb.endsIn_dirText] at hfile hparts
  refine ⟨file, hfile, ?_⟩
  have hinfo : (b.into [".git".toList, "info".toList]).IsNormal := hb.into (by decide)
  have hexclude : Source.pathFrom h b.dirText (join b.dirText ".git/info/exclude".toList) =
      b.dirText ++ ".git/info/exclude".toList := by
    have hpath : b.dirText ++ ".git/info/exclude".toList =
        (b.into [".git".toList, "info".toList]).dirText ++ "exclude".toList := by
      rw [Pathname.dirText_into, List.append_assoc]
      rfl
    rw [hb.join_dirText (by decide), hpath]
    exact hinfo.pathFrom_dirText_append (by decide) h b.dirText
  have hrootFile : Source.pathFrom h b.dirText (join b.dirText ignoreFileName) =
      b.dirText ++ ignoreFileName := by
    rw [hb.join_dirText (by decide)]
    exact hb.pathFrom_dirText_append isProper_ignoreFileName h b.dirText
  -- the hierarchy could be created, so each of its sources has been read
  obtain ⟨control, _, hcontrol, hfiles, rfl⟩ := mapM_cons_eq_ok_iff.mp hparts
  obtain ⟨all, _, hall, hown, rfl⟩ := mapM_cons_eq_ok_iff.mp hfiles
  obtain ⟨repository, _, hrepository, htops, rfl⟩ := mapM_cons_eq_ok_iff.mp hown
  obtain ⟨top, _, htop, hnone, rfl⟩ := mapM_cons_eq_ok_iff.mp htops
  cases hnone
  rw [rules_of_versionControl] at hcontrol
  rw [← Except.ok.inj hcontrol, eq_ignoreRules_of_file hb hall,
    eq_ignoreRules_of_file hb hrepository, eq_ignoreRules_of_file hb htop, hexclude, hrootFile]
  rfl

/-- The rules along the way down to a directory are those of the files that hold for the paths in
it, the nearest one last. -/
theorem rules_along_eq (hb : b.IsNormal) (hg : g.root = b.dirText) (hds : ∀ d ∈ ds, IsProper d)
    {name file : Text} (hname : name.IsName)
    (hseed : g.seed = (commonFiles h b.dirText file).reverse.flatten) :
    (g.along h ds).rules = (filesFor h b.dirText file (dir ds ++ name)).reverse.flatten := by
  rw [filesFor, ancestors_dir_append (fun d hd => (hds d hd).1) hname, List.reverse_append,
    List.flatten_append, ← List.map_reverse, List.reverse_reverse, ← hseed, rules]
  show g.seed ++ ((descend [] ds).map fun dir => (dir, g.nestedRules h dir)).flatMap (·.2) = _
  rw [List.flatMap_map, List.flatMap_def]
  congr 2
  refine List.map_congr_left (fun d hd => ?_)
  obtain ⟨as, -, has, rfl⟩ := mem_descend_iff.mp hd
  exact nestedRules_eq hb hg (fun a ha => hds a (has.subset ha))

/-- A path whose directories are loaded lies in directories with names that lead down. -/
theorem Coherent.exists_dir_of_loaded (hg : Coherent h g₀ g) {path : Text} (hne : path ≠ [])
    (hend : path.endsIn '/' = false) (hloaded : ∀ d ∈ ancestors path, d ∈ g.loaded) :
    ∃ ds name, (∀ d ∈ ds, IsProper d) ∧ name.IsName ∧ path = dir ds ++ name ∧ g.Knows ds := by
  obtain ⟨ds, name, hsplit⟩ := List.eq_nil_or_concat (Text.splitOn '/' path) |>.resolve_left
    (Text.splitOn_ne_nil '/' path)
  rw [List.concat_eq_append] at hsplit
  have hfree : ∀ c ∈ ds ++ [name], '/' ∉ c := fun c hc =>
    Text.not_mem_of_mem_splitOn (hsplit ▸ hc)
  have hpath : path = dir ds ++ name := by
    rw [← joinWith_concat, ← hsplit, Text.joinWith_splitOn]
  have hname : name.IsName := by
    refine ⟨?_, hfree name (by simp)⟩
    rintro rfl
    rcases List.eq_nil_or_concat ds with rfl | ⟨es, e, rfl⟩
    · exact hne hpath
    · rw [hpath, List.concat_eq_append, dir_concat, List.append_nil, Text.endsIn_concat] at hend
      cases hend
  have hancestors : ancestors path = descend [] ds := by
    rw [ancestors, Text.dropTrailing_of_endsIn_eq_false hend, hsplit, List.dropLast_concat]
  rw [hancestors] at hloaded
  refine ⟨ds, name, ?_, hname, hpath, hloaded⟩
  by_cases hnil : ds = []
  · rw [hnil]
    exact fun d hd => absurd hd List.not_mem_nil
  · -- the directory that the path is in has been loaded, so its names are those of a directory
    have hmem : dir ds ∈ g.loaded :=
      hloaded _ (mem_descend_iff.mpr ⟨ds, hnil, List.prefix_rfl, rfl⟩)
    obtain ⟨e, he, heq⟩ := (mem_loaded_dir_iff hnil).mp hmem
    obtain ⟨es, -, hes, hdir⟩ := hg.named e he
    have hds : ds = es := dir_inj_of_slash_free
      (fun d hd => hfree d (List.mem_append_left _ hd)) (fun d hd => (hes d hd).1.2)
      (heq.symm.trans hdir)
    exact hds ▸ hes

end Hierarchy

/-! ## Filters -/

namespace Filter
variable {h : Host} {plan : FilterPlan} {f : Filter}

/-- The rules that a filter is created with are those of the files that hold everywhere. -/
theorem exists_seed_eq_commonFiles (hcwd : h.cwd.head? = some '/') (hf : create h plan = .ok f)
    (henabled : f.config.ignoreFiles ≠ .off) :
    ∃ g file, f.policy.hierarchy = some g ∧
      Hierarchy.globalFile h f.root f.config.globalFile = .ok file ∧
      g.seed = (Hierarchy.commonFiles h f.root file).reverse.flatten := by
  have h₀ : f.Fresh := fresh_of_create hcwd hf
  obtain ⟨g, required, hhierarchy, hg⟩ := exists_hierarchy_of_create hf henabled
  rw [h₀.root_eq] at hg ⊢
  obtain ⟨file, hfile, hseed⟩ := Hierarchy.seed_of_create h₀.normal hg
  exact ⟨g, file, hhierarchy, hfile, hseed⟩

/-- **The nearest ignore file with a rule that applies decides.**  Whatever has been done with a
filter that consults ignore files, and whatever it has loaded on the way: once the directories
above a path are loaded, its ignore files say of the path what the first of the files that hold for
it says, the deepest one coming first, and within that file the last rule that applies. -/
theorem verdict_eq_nearestOpinion (hs : h.Sound) (hf : create h plan = .ok f)
    (henabled : f.config.ignoreFiles ≠ .off) (actions : List Action) :
    ∃ g file, (Session.run h ⟨f, [], []⟩ actions).filter.policy.hierarchy = some g ∧
      Hierarchy.globalFile h f.root f.config.globalFile = .ok file ∧
      ∀ (path : Text) (isDir : Bool) (firstLine : Option Text), path ≠ [] →
        path.endsIn '/' = false → (∀ dir ∈ ancestors path, dir ∈ g.loaded) →
        let c : Candidate := ⟨f.root ++ path, isDir, firstLine⟩
        g.toRuleList.verdict c =
          RuleList.nearestOpinion c (Hierarchy.filesFor h f.root file path) := by
  have h₀ : f.Fresh := fresh_of_create hs.cwd hf
  obtain ⟨g₀, file, hg₀, hfile, hseed⟩ := exists_seed_eq_commonFiles hs.cwd hf henabled
  have hrun := (Session.faithful_run hs hf actions).coherent.policy.hierarchy
  rw [hg₀] at hrun
  generalize (Session.run h ⟨f, [], []⟩ actions).filter.policy.hierarchy = hierarchy at hrun ⊢
  cases hrun with
  | @some _ g hgg =>
    refine ⟨g, file, rfl, hfile, ?_⟩
    intro path isDir firstLine hne hend hloaded c
    obtain ⟨ds, name, hds, hname, rfl, hk⟩ := hgg.exists_dir_of_loaded hne hend hloaded
    have hroot : g₀.root = f.resolver.base.dirText := h₀.rooted.hierarchy g₀ hg₀
    have hpath : c.path = f.resolver.base.dirText ++ dir ds ++ name := by
      rw [List.append_assoc, ← h₀.root_eq]
    rw [h₀.root_eq] at hseed ⊢
    rw [hgg.verdict_eq h₀.normal hroot hds hk hname hpath, Hierarchy.toRuleList,
      Hierarchy.rules_along_eq h₀.normal hroot hds hname hseed, RuleList.verdict_flatten,
      List.reverse_reverse]

/-- A root whose ignore file rules out `a`, a directory whose own one lets it in, and another
directory whose one rules it out. -/
def rankedHost : Host :=
  { files := .ofEntries
      [("/r/.gitignore".toList, { kind := .file [97] }),
       ("/r/d/.gitignore".toList, { kind := .file [33, 97] }),
       ("/r/d/a".toList, { kind := .file [] }),
       ("/r/e/.gitignore".toList, { kind := .file [97] }),
       ("/r/e/a".toList, { kind := .file [] })]
    cwd := "/r".toList
    homes := ⟨none, []⟩
    configHome := none }

/-- The file `d/a` is let in by the ignore file of its directory, though rules that rule `a` out
have been loaded before and after it. -/
theorem verdict_of_nearer_file : ∃ f g, create rankedHost {} = .ok f ∧
    (Session.run rankedHost ⟨f, [], []⟩
      [.start, .advance 0 (some 2), .ask { path := "/r/e/a".toList }]).filter.policy.hierarchy =
        some g ∧
    g.toRuleList.verdict ⟨f.root ++ "d/a".toList, false, none⟩ = .allowed := by
  have hs : rankedHost.Sound := Host.sound_of_ofEntries rfl rfl (by decide)
  let actions : List Action := [.start, .advance 0 (some 2), .ask { path := "/r/e/a".toList }]
  obtain ⟨f, hf, hfacts⟩ : ∃ f, create rankedHost {} = .ok f ∧
      (decide (f.config.ignoreFiles ≠ .off) &&
        (Session.run rankedHost ⟨f, [], []⟩ actions).filter.policy.hierarchy.all
          (fun g => (ancestors "d/a".toList).all (· ∈ g.loaded)) &&
        (Hierarchy.globalFile rankedHost f.root f.config.globalFile).toOption.all fun file =>
          RuleList.nearestOpinion ⟨f.root ++ "d/a".toList, false, none⟩
            (Hierarchy.filesFor rankedHost f.root file "d/a".toList) = .allowed) = true :=
    exists_eq_ok_of_any (by decide +kernel)
  obtain ⟨hfacts, hnearest⟩ := Bool.and_eq_true_iff.mp hfacts
  obtain ⟨henabled, hloaded⟩ := Bool.and_eq_true_iff.mp hfacts
  obtain ⟨g, file, hg, hfile, hverdict⟩ :=
    verdict_eq_nearestOpinion hs hf (of_decide_eq_true henabled) actions
  rw [hg] at hloaded
  rw [hfile] at hnearest
  refine ⟨f, g, hf, hg, (hverdict _ false none (by decide) (by decide) ?_).trans ?_⟩
  · intro dir hdir
    exact of_decide_eq_true (List.all_eq_true.mp hloaded dir hdir)
  · exact of_decide_eq_true hnearest

end Filter
end PathFilter
