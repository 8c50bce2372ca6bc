import PathFilter.Filter.Basic
import PathFilter.Proofs.Iteration

/-! # The state of a filter

A filter keeps what it has loaded.  A filter that has just been created (`Filter.Fresh`) stays
coherent with what it was then, whatever is asked of it and however its iterations are advanced
(`Filter.Coherent`).

* **What is answered is determined by the filter as it was created** (`Coherent.ask_eq`): a path
  is allowed if each directory above it is by the rules that hold for that directory, and the path
  itself by the rules that hold there (`Coherent.decideAt`).
* An iteration that is advanced finds what it has still to find (`Coherent.advance`).
-/

namespace PathFilter
open PathFilter.Path

/-! ## Creation -/

/-- The ignore file for all repositories: the one that is given, or else the one that the
configuration names. -/
def Hierarchy.globalFile (h : Host) (root : Text) (given : Option Text) : Except Failure Text :=
  match given with
  | some file => .ok file
  | none => GitConfig.globalIgnoreFile h root

/-- What is created for a root has the rules of the sources that hold from the beginning, and has
loaded nothing. -/
theorem Hierarchy.exists_of_create {h : Host} {root : Text} {given : Option Text} {required : Bool}
    {g : Hierarchy} (hg : create h root given required = .ok g) :
    ∃ file parts, globalFile h (slashed root) given = .ok file ∧
      (seedSources (slashed root) file).mapM (·.rules h (slashed root)) = .ok parts ∧
      g = { root := slashed root, seed := parts.flatten, loads := [] } := by
  rw [create] at hg
  split at hg
  · cases hg
  · cases given with
    | none =>
      obtain ⟨file, hfile, hg⟩ := bind_eq_ok_iff.mp hg
      obtain ⟨parts, hparts, hg⟩ := bind_eq_ok_iff.mp hg
      exact ⟨file, parts, hfile, hparts, (Except.ok.inj hg).symm⟩
    | some given =>
      obtain ⟨file, hfile, hg⟩ := bind_eq_ok_iff.mp hg
      obtain ⟨parts, hparts, hg⟩ := bind_eq_ok_iff.mp hg
      exact ⟨file, parts, hfile, hparts, (Except.ok.inj hg).symm⟩

/-- What a hierarchy is when it is created. -/
theorem Hierarchy.of_create {h : Host} {root : Text} {given : Option Text} {required : Bool}
    {g : Hierarchy} (hg : create h root given required = .ok g) :
    g.root = slashed root ∧ g.loads = [] := by
  obtain ⟨_, _, -, -, rfl⟩ := exists_of_create hg
  exact ⟨rfl, rfl⟩

/-- The lists that the sources of a plan make. -/
structure PolicyPlan.Makes (h : Host) (plan : PolicyPlan)
    (ignoring including further : List RuleList) : Prop where
  ignoring : plan.ignoring.mapM (Policy.listOf h (Path.slashed plan.root) false) = .ok ignoring
  including : plan.including.mapM (Policy.listOf h (Path.slashed plan.root) true) = .ok including
  further : plan.further.mapM (fun s => Policy.listOf h (Path.slashed plan.root) s.allow s) =
    .ok further

/-- What is created for a plan is made of the hierarchy and the lists that it asks for. -/
theorem Policy.exists_of_create {h : Host} {plan : PolicyPlan} {p : Policy}
    (hp : create h plan = .ok p) :
    ∃ hierarchy ignoring including further,
      (if plan.ignoreFiles then
        some <$> Hierarchy.create h (slashed plan.root) plan.globalFile plan.ignoreFileRequired
      else pure none) = .ok hierarchy ∧
      plan.Makes h ignoring including further ∧
      p = { root := slashed plan.root, hierarchy, precedence := plan.precedence
            lists := ignoring ++ including ++ further } := by
  have hlists : ∀ {hierarchy : Option Hierarchy},
      (do
        let ignoring ← plan.ignoring.mapM (listOf h (slashed plan.root) false)
        let including ← plan.including.mapM (listOf h (slashed plan.root) true)
        let further ← plan.further.mapM fun s : Source =>
          listOf h (slashed plan.root) s.allow s
        return { root := slashed plan.root, hierarchy, precedence := plan.precedence
                 lists := ignoring ++ including ++ further : Policy }) = .ok p →
      ∃ ignoring including further, plan.Makes h ignoring including further ∧
        p = { root := slashed plan.root, hierarchy, precedence := plan.precedence
              lists := ignoring ++ including ++ further } := by
    intro hierarchy hp
    obtain ⟨ignoring, hignoring, hp⟩ := bind_eq_ok_iff.mp hp
    obtain ⟨including, hincluding, hp⟩ := bind_eq_ok_iff.mp hp
    obtain ⟨further, hfurther, hp⟩ := bind_eq_ok_iff.mp hp
    cases hp
    exact ⟨ignoring, including, further, ⟨hignoring, hincluding, hfurther⟩, rfl⟩
  rw [create] at hp
  split at hp
  · rename_i hfiles
    obtain ⟨hierarchy, hhierarchy, hp⟩ := bind_eq_ok_iff.mp hp
    obtain ⟨ignoring, including, further, hmakes, heq⟩ := hlists hp
    rw [if_pos hfiles]
    exact ⟨hierarchy, ignoring, including, further, hhierarchy, hmakes, heq⟩
  · rename_i hfiles
    obtain ⟨hierarchy, hhierarchy, hp⟩ := bind_eq_ok_iff.mp hp
    obtain ⟨ignoring, including, further, hmakes, heq⟩ := hlists hp
    rw [if_neg hfiles]
    exact ⟨hierarchy, ignoring, including, further, hhierarchy, hmakes, heq⟩

/-- A plan whose hierarchy and lists can be made makes a policy of them. -/
theorem Policy.create_eq_ok {h : Host} {plan : PolicyPlan} {hierarchy : Option Hierarchy}
    {ignoring including further : List RuleList}
    (hhierarchy : (if plan.ignoreFiles then
        some <$> Hierarchy.create h (slashed plan.root) plan.globalFile plan.ignoreFileRequired
      else pure none) = .ok hierarchy)
    (hmakes : plan.Makes h ignoring including further) :
    create h plan = .ok { root := slashed plan.root, hierarchy, precedence := plan.precedence
                          lists := ignoring ++ including ++ further } := by
  rw [create]
  split at hhierarchy
  · rename_i hfiles
    simp only [hfiles, if_true, hhierarchy, hmakes.ignoring, hmakes.including, hmakes.further]
    rfl
  · rename_i hfiles
    cases hhierarchy
    simp only [hfiles, hmakes.ignoring, hmakes.including, hmakes.further]
    rfl

/-- A policy that has been created has the root of its plan, and has loaded nothing. -/
theorem Policy.of_create {h : Host} {plan : PolicyPlan} {p : Policy} (hp : create h plan = .ok p) :
    p.root = slashed plan.root ∧
      ∀ g, p.hierarchy = some g → g.root = slashed (slashed plan.root) ∧ g.loads = [] := by
  obtain ⟨hierarchy, _, _, _, hhierarchy, -, rfl⟩ := exists_of_create hp
  refine ⟨rfl, fun g hg => ?_⟩
  change hierarchy = some g at hg
  split at hhierarchy
  · obtain ⟨g', hg', heq⟩ := map_eq_ok_iff.mp hhierarchy
    cases heq.trans hg
    exact Hierarchy.of_create hg'
  · cases hhierarchy
    cases hg

/-- What a filter is when it is created. -/
theorem Filter.of_create {h : Host} {plan : FilterPlan} {f : Filter} (hf : create h plan = .ok f) :
    Resolver.create h.homes h.cwd plan.root = .ok f.resolver ∧
      Policy.create h (plan.policy f.resolver.root f.config) = .ok f.policy := by
  rw [create] at hf
  obtain ⟨config, hconfig, hf⟩ := bind_eq_ok_iff.mp hf
  obtain ⟨resolver, hresolver, hf⟩ := bind_eq_ok_iff.mp hf
  split at hf
  · cases hf
  · obtain ⟨policy, hpolicy, hf⟩ := bind_eq_ok_iff.mp hf
    cases hf
    exact ⟨mapError_eq_ok_iff.mp hresolver, hpolicy⟩

namespace Filter
variable {h : Host} {f f₀ : Filter} {ds : List Text} {name : Text}

/-- A filter as it is when it has been created: it has loaded nothing but the rules that hold from
the beginning. -/
structure Fresh (f : Filter) : Prop where
  normal : f.resolver.base.IsNormal
  rooted : f.policy.RootedAt f.resolver.base
  unloaded : ∀ g, f.policy.hierarchy = some g → g.loads = []

/-- What a filter has become of the one it began as. -/
structure Coherent (h : Host) (f₀ f : Filter) : Prop where
  config : f.config = f₀.config
  resolver : f.resolver = f₀.resolver
  policy : f₀.policy.Coherent h f.policy

/-- A question changes nothing but what is loaded. -/
theorem ask_fst_eq {q : Query} : (f.ask h q).1 = { f with policy := (f.ask h q).1.policy } := by
  rw [ask]
  cases f.resolver.relative? h.homes q.path with
  | error e => rfl
  | ok found =>
    cases found with
    | none => rfl
    | some relative =>
      show (f.decideBelow h relative q).1 =
        { f with policy := (f.decideBelow h relative q).1.policy }
      rw [decideBelow]
      cases f.probe h (f.root ++ relative) q with
      | error e => rfl
      | ok found =>
        simp only
        split
        · rfl
        · split <;> rfl

/-- An iteration changes nothing of its filter but what is loaded. -/
theorem advance_fst_eq {wanted : Option Nat} {w : Walk} :
    (f.advance h wanted w).1 = { f with policy := (f.advance h wanted w).1.policy } := by
  rw [advance]
  split
  · rfl
  · simp only
    cases (w.advance h f.config f.root f.policy wanted).halt <;> rfl

theorem Fresh.root_eq (hf : f.Fresh) : f.root = f.resolver.base.dirText :=
  root_eq_dirText hf.normal

theorem Fresh.coherent (hf : f.Fresh) : f.Coherent h f :=
  ⟨rfl, rfl, .refl hf.unloaded⟩

theorem Coherent.root_eq (hf : f₀.Coherent h f) : f.root = f₀.root := by
  rw [root, root, hf.resolver]

/-- A filter that has been created has loaded nothing but the rules that hold from the
beginning. -/
theorem fresh_of_create {plan : FilterPlan} (hcwd : h.cwd.head? = some '/')
    (hf : create h plan = .ok f) : f.Fresh := by
  obtain ⟨hresolver, hpolicy⟩ := of_create hf
  have hnormal := Resolver.isNormal_base hcwd hresolver
  have hroot : slashed f.resolver.root = f.resolver.base.dirText := by
    rw [Resolver.root, hnormal.slashed_toText, slashed_of_endsIn hnormal.endsIn_dirText]
  have hplan : slashed (plan.policy f.resolver.root f.config).root = f.resolver.base.dirText :=
    hroot
  obtain ⟨hp, hg⟩ := Policy.of_create hpolicy
  rw [hplan] at hp hg
  rw [slashed_of_endsIn hnormal.endsIn_dirText] at hg
  exact ⟨hnormal, ⟨hp, fun g e => (hg g e).1⟩, fun g e => (hg g e).2⟩

/-- A filter that consults ignore files has the hierarchy that is created for its root. -/
theorem exists_hierarchy_of_create {plan : FilterPlan} (hf : create h plan = .ok f)
    (henabled : f.config.ignoreFiles ≠ .off) :
    ∃ g required, f.policy.hierarchy = some g ∧
      Hierarchy.create h f.root f.config.globalFile required = .ok g := by
  obtain ⟨hierarchy, _, _, _, hhierarchy, -, hp⟩ := Policy.exists_of_create (of_create hf).2
  have hroot : slashed f.resolver.root = f.root := by
    rw [root, Resolver.root, slashed_of_endsIn (endsIn_slashed _)]
  have hconsulted : (plan.policy f.resolver.root f.config).ignoreFiles = true :=
    decide_eq_true henabled
  rw [if_pos hconsulted] at hhierarchy
  obtain ⟨g, hg, rfl⟩ := map_eq_ok_iff.mp hhierarchy
  change Hierarchy.create h (slashed f.resolver.root) f.config.globalFile _ = .ok g at hg
  rw [hroot] at hg
  exact ⟨g, _, by rw [hp], hg⟩

/-! ## Questions -/

/-- A path is allowed by the rules that hold for it and for each directory above it, those that
the filter had when it was created and those of the ignore files on the way down. -/
def AllowsAt (h : Host) (f : Filter) (ds : List Text) (name : Text) (isDir : Bool)
    (firstLine : Option Text) : Prop :=
  f.policy.AllowsWay h f.resolver.base ds ∧
    (f.policy.along h ds).allowsAlone ⟨f.root ++ dir ds ++ name, isDir, firstLine⟩ = true

/-- The first line that a path is judged by: that of a text that is given with the question, or
that of the file where a rule that holds there looks at it. -/
def lineAt (h : Host) (f : Filter) (ds : List Text) (name : Text) (isDir : Bool) (q : Query)
    (read : Option Text) : Option Text :=
  match q.content with
  | some content => some (firstLineOf content)
  | none =>
    if (f.policy.along h ds).readsFirstLine && mayBeScript isDir name then read else none

/-- **A path is allowed by the rules that hold for it and for the directories above it**, whatever
has been loaded before. -/
theorem Coherent.decideAt (hs : h.Sound) (h₀ : f₀.Fresh) (hf : f₀.Coherent h f)
    (hds : ∀ d ∈ ds, IsProper d) (hname : IsProper name) (isDir : Bool) (q : Query)
    {read : Option Text} (hread : h.firstLine (f₀.root ++ (dir ds ++ name)) = .ok read) :
    ∃ f' a, f.decideAt h (dir ds ++ name) isDir q = (f', .ok a) ∧ f₀.Coherent h f' ∧
      f.policy.Extends f'.policy ∧
      (a = true ↔ f₀.AllowsAt h ds name isDir (f₀.lineAt h ds name isDir q read)) := by
  obtain ⟨p, hload, hp, hk, hle⟩ := hf.policy.loadAbove hs hds hname.1
  have hf' : f₀.Coherent h { f with policy := p } := ⟨hf.config, hf.resolver, hp⟩
  have hlast : Path.name (dir ds ++ name) = name := name_dir_append hname.1.2 ds
  -- the first line that is looked at, by the rules that are loaded now
  obtain ⟨line, hline, halone⟩ : ∃ line,
      firstLine? h { f with policy := p } (dir ds ++ name) isDir q = .ok line ∧
      p.allowsAlone ⟨f₀.root ++ dir ds ++ name, isDir, line⟩ =
        (f₀.policy.along h ds).allowsAlone
          ⟨f₀.root ++ dir ds ++ name, isDir, f₀.lineAt h ds name isDir q read⟩ := by
    rw [firstLine?, lineAt, h₀.root_eq]
    cases q.content with
    | some content =>
      refine ⟨some (firstLineOf content), rfl, ?_⟩
      exact hp.allowsAlone_eq h₀.normal h₀.rooted hds hk hname.1 rfl
    | none =>
      refine ⟨if p.readsFirstLine && mayBeScript isDir name then read else none, ?_, ?_⟩
      · show (if p.wantsFirstLine isDir (Path.name (dir ds ++ name)) then
            h.firstLine (f.root ++ (dir ds ++ name)) else .ok none) = _
        rw [hf.root_eq, hlast, Policy.wantsFirstLine, Bool.and_comm]
        split
        · exact hread
        · rfl
      · exact hp.allowsAlone_firstLine h₀.normal h₀.rooted hds hk hname.1
          (hp.readsFirstLine_of_along hds hk) isDir _ read
  refine ⟨{ f with policy := p }, p.allows (dir ds ++ name) isDir line, ?_, hf', hle, ?_⟩
  · rw [Filter.decideAt, hload]
    simp only [hline]
    rfl
  · have hpath : p.candidate (dir ds ++ name) isDir line =
        ⟨f₀.root ++ dir ds ++ name, isDir, line⟩ := by
      rw [Policy.candidate, hp.root, h₀.rooted.root, h₀.root_eq, List.append_assoc]
    rw [Policy.allows, Bool.and_eq_true, hpath, halone,
      hp.allowsAbove_iff h₀.normal h₀.rooted hds hk hname.1, AllowsAt]

/-- Asking about a path below the root. -/
theorem Coherent.decideBelow (hs : h.Sound) (h₀ : f₀.Fresh) (hf : f₀.Coherent h f)
    (hds : ∀ d ∈ ds, IsProper d) (hname : IsProper name) (q : Query) :
    (f.decideBelow h (dir ds ++ name) q).2 = (f₀.decideBelow h (dir ds ++ name) q).2 ∧
      f₀.Coherent h (f.decideBelow h (dir ds ++ name) q).1 ∧
      f.policy.Extends (f.decideBelow h (dir ds ++ name) q).1.policy := by
  have hprobe : f.probe h (f.root ++ (dir ds ++ name)) q =
      f₀.probe h (f₀.root ++ (dir ds ++ name)) q := by
    rw [probe, probe, hf.config, hf.root_eq]
  rw [Filter.decideBelow, Filter.decideBelow, hprobe, hf.root_eq]
  cases f₀.probe h (f₀.root ++ (dir ds ++ name)) q with
  | error e => exact ⟨rfl, hf, .refl _⟩
  | ok found =>
    obtain ⟨isDir, present⟩ := found
    simp only
    split
    · exact ⟨rfl, hf, .refl _⟩
    · split
      · exact ⟨rfl, hf, .refl _⟩
      · obtain ⟨read, hread⟩ := Host.exists_firstLine_eq hs.mild (f₀.root ++ (dir ds ++ name))
        obtain ⟨f', a, heq, hf', hle, ha⟩ := hf.decideAt hs h₀ hds hname isDir q hread
        obtain ⟨f₁, a₁, heq₁, -, -, ha₁⟩ := h₀.coherent.decideAt hs h₀ hds hname isDir q hread
        rw [heq, heq₁]
        exact ⟨congrArg Except.ok (Bool.eq_iff_iff.mpr (ha.trans ha₁.symm)), hf', hle⟩

/-- **What a filter answers is what it would have answered when it was created.** -/
theorem Coherent.ask_eq (hs : h.Sound) (h₀ : f₀.Fresh) (hf : f₀.Coherent h f) (q : Query) :
    (f.ask h q).2 = (f₀.ask h q).2 ∧ f₀.Coherent h (f.ask h q).1 ∧
      f.policy.Extends (f.ask h q).1.policy := by
  rw [ask, ask, hf.resolver]
  cases hrel : f₀.resolver.relative? h.homes q.path with
  | error e => exact ⟨rfl, hf, .refl _⟩
  | ok found =>
    cases found with
    | none => exact ⟨rfl, hf, .refl _⟩
    | some relative =>
      obtain ⟨ds, name, hds, hname, rfl⟩ := Resolver.exists_dir_of_relative? h₀.normal hrel
      obtain ⟨heq, hf', hle⟩ := hf.decideBelow hs h₀ hds hname q
      exact ⟨congrArg (Except.mapError Failure.access) heq, hf', hle⟩

/-- **What is answered about a path below the root, once it is known whether it is a directory**:
it is allowed if directories may be, or it is none, if it is present, and if the rules that hold
for it and for the directories above it allow it. -/
theorem Fresh.exists_ask_eq (hs : h.Sound) (hf : f.Fresh) (hds : ∀ d ∈ ds, IsProper d)
    (hname : IsProper name) {q : Query} {isDir : Bool} {present : Option Bool}
    (hrelative : f.resolver.relative? h.homes q.path = .ok (some (dir ds ++ name)))
    (hprobe : f.probe h (f.root ++ (dir ds ++ name)) q = .ok (isDir, present))
    {read : Option Text} (hread : h.firstLine (f.root ++ (dir ds ++ name)) = .ok read) :
    ∃ a, (f.ask h q).2 = .ok a ∧ (a = true ↔
      (isDir = true → q.includeDirectories = true) ∧
        present.getD (h.present (f.root ++ (dir ds ++ name))) = true ∧
        f.AllowsAt h ds name isDir (f.lineAt h ds name isDir q read)) := by
  rw [ask, hrelative]
  simp only [Filter.decideBelow, hprobe]
  by_cases hkind : isDir = true → q.includeDirectories = true
  · rw [if_neg (by simpa using hkind)]
    by_cases hpresent : present.getD (h.present (f.root ++ (dir ds ++ name))) = true
    · obtain ⟨f', a, hdecide, -, -, ha⟩ := hf.coherent.decideAt hs hf hds hname isDir q hread
      rw [if_neg (by simp [hpresent]), hdecide]
      exact ⟨a, rfl, ha.trans ⟨fun hall => ⟨hkind, hpresent, hall⟩, fun hall => hall.2.2⟩⟩
    · rw [if_pos (by simp [hpresent])]
      exact ⟨false, rfl, iff_of_false Bool.false_ne_true fun hall => hpresent hall.2.1⟩
  · rw [if_pos (by simpa using hkind)]
    exact ⟨false, rfl, iff_of_false Bool.false_ne_true fun hall => hkind hall.1⟩

/-- What is allowed can be probed. -/
theorem exists_probe_of_ask {q : Query} {relative : Text}
    (hrelative : f.resolver.relative? h.homes q.path = .ok (some relative))
    (hallowed : (f.ask h q).2 = .ok true) :
    ∃ isDir present, f.probe h (f.root ++ relative) q = .ok (isDir, present) := by
  rw [ask, hrelative] at hallowed
  simp only [Filter.decideBelow] at hallowed
  cases hprobe : f.probe h (f.root ++ relative) q with
  | error e =>
    rw [hprobe] at hallowed
    cases hallowed
  | ok found => exact ⟨found.1, found.2, rfl⟩

/-! ## Iterations -/

/-- The files that a filter finds in all. -/
def allFiles (h : Host) (f : Filter) : List Text :=
  Walk.files h f.config f.resolver.base f.policy [] []

/-- What an iteration of a filter has still to find. -/
def Owes (h : Host) (f₀ f : Filter) (list : List Text) (w : Walk) : Prop :=
  Walk.Owes h f₀.config f₀.resolver.base f₀.policy f.policy list w

theorem Owes.mono {f' : Filter} {list : List Text} {w : Walk} (ho : f₀.Owes h f list w)
    (hle : f.policy.Extends f'.policy) : f₀.Owes h f' list w :=
  Walk.Owes.mono ho hle

/-- An iteration that has ended has nothing to find. -/
theorem Owes.eq_nil {list : List Text} (ho : f₀.Owes h f list (.inside [])) : list = [] := by
  cases ho
  rfl

/-- **An iteration that is advanced finds what it has still to find**, all of it if all is asked
for. -/
theorem Coherent.advance (hs : h.Sound) (h₀ : f₀.Fresh) (hf : f₀.Coherent h f) {w : Walk}
    {list : List Text} (ho : f₀.Owes h f list w) (wanted : Option Nat) :
    f₀.Coherent h (f.advance h wanted w).1 ∧
      f.policy.Extends (f.advance h wanted w).1.policy ∧
      (f.advance h wanted w).2.error = none ∧
      ∃ rest, f₀.Owes h (f.advance h wanted w).1 rest (f.advance h wanted w).2.walk ∧
        (f.advance h wanted w).2.found ++ rest = list ∧
        (wanted = none → (f.advance h wanted w).2.walk = .inside []) := by
  rw [Filter.advance]
  split
  · rename_i hzero
    refine ⟨hf, .refl _, rfl, list, ho, rfl, fun hnone => ?_⟩
    rw [hnone] at hzero
    cases hzero
  · have haccounts : Walk.Accounts h f₀.config f₀.resolver.base f₀.policy f.policy wanted list
        (w.advance h f.config f.root f.policy wanted) := by
      rw [hf.config, hf.root_eq, h₀.root_eq]
      exact Walk.advance_accounts hs h₀.normal h₀.rooted hf.policy ho
    have hsettles := haccounts.settles
    rw [Walk.Settles] at hsettles
    generalize w.advance h f.config f.root f.policy wanted = done at *
    have hf' : f₀.Coherent h { f with policy := done.policy } :=
      ⟨hf.config, hf.resolver, haccounts.coherent⟩
    cases hhalt : done.halt with
    | failed e =>
      rw [hhalt] at hsettles
      exact hsettles.elim
    | finished =>
      rw [hhalt] at hsettles
      simp only [hhalt]
      refine ⟨hf', haccounts.grown, trivial, [], Walk.Remaining.nil, ?_, fun _ => trivial⟩
      rw [List.append_nil]
      exact hsettles
    | paused frames =>
      rw [hhalt] at hsettles
      obtain ⟨hwanted, rest, hr, hfound⟩ := hsettles
      simp only [hhalt]
      exact ⟨hf', haccounts.grown, trivial, rest, hr, hfound, fun hw => absurd hw hwanted⟩

/-- **An enumeration finds all files**, whatever has been loaded before. -/
theorem Coherent.enumerate_eq (hs : h.Sound) (h₀ : f₀.Fresh) (hf : f₀.Coherent h f) :
    (f.enumerate h).2 = ⟨f₀.allFiles h, .inside [], none⟩ := by
  obtain ⟨-, -, herror, rest, ho, hfound, hwalk⟩ :=
    hf.advance hs h₀ (w := .unstarted) (rfl : f₀.Owes h f (f₀.allFiles h) .unstarted) none
  rw [hwalk rfl] at ho
  rw [ho.eq_nil, List.append_nil] at hfound
  rw [enumerate, ← hfound, ← hwalk rfl, ← herror]

end Filter
end PathFilter
