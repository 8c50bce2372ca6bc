import PathFilter.Proofs.ChangingFiles
import PathFilter.Proofs.LoadOrder
import PathFilter.Proofs.NearestFile
import PathFilter.Proofs.RelativeNames

/-! # What is loaded while files change

A filter is in use, by questions and by iterations that go on in turns; files are written and
removed in between; and anything that is done may fail.  From each moment to the next the ignore
files that the filter knows only grow, on the host as it is then (`Scene.Orderly.step`).

So they have a course (`Hierarchy.Course`), and what is true of every course is true of them.
**A directory is among the loaded ones exactly if it has been loaded at one of the moments before,
and has the rules that its ignore file gave at that moment** (`Hierarchy.Course.mem_loads_iff`).
These are the rules on the lines of the file `.gitignore` in it (`Hierarchy.Course.loadsAt_iff`).
What this comes to for the rules of a filter is `Filter.loads_of_run`: the ones that it was created
with, of four sources, and behind them the rules of one nested ignore file after the other.
-/

namespace PathFilter
open PathFilter.Path

/-! ## The course of a hierarchy -/

namespace Hierarchy
variable {g : Hierarchy}

/-- The ignore files that have given rules, in the order in which they were loaded. -/
def blocks (g : Hierarchy) : List (Text × List Rule) := g.loads.filter (·.2 ≠ [])

/-- The rules are those from the beginning, and behind them one block after the other. -/
theorem rules_eq_blocks (g : Hierarchy) : g.rules = g.seed ++ g.blocks.flatMap (·.2) := by
  rw [rules, blocks, flatMap_filter_of_eq_nil]
  intro x _ hx
  simpa using hx

theorem Ordered.nodup_blocks (hg : g.Ordered) : (g.blocks.map (·.1)).Nodup :=
  (List.nodup_cons.mp hg.nodup).2.sublist (List.filter_sublist.map _)

/-- No block stands behind that of a directory below. -/
theorem Ordered.pairwise_blocks (hg : g.Ordered) :
    g.blocks.Pairwise fun x y => y.1 ∉ ancestors x.1 :=
  hg.above.sublist List.filter_sublist

/-- The course of a hierarchy: what it is at each moment, and the host on which it becomes what it
is at the next. -/
structure Course where
  host : Nat → Host
  state : Nat → Hierarchy
  unloaded : (state 0).loads = []
  grows : ∀ n, (state n).Grows (host n) (state (n + 1))

namespace Course
variable (c : Course) {n m : Nat} {d : Text} {rules : List Rule}

/-- A directory is loaded from a moment to the next, and its ignore file gives these rules then. -/
def LoadsAt (m : Nat) (d : Text) (rules : List Rule) : Prop :=
  d ∉ (c.state m).loaded ∧ d ∈ (c.state (m + 1)).loaded ∧
    (c.state m).rulesIn (c.host m) d = .ok rules

theorem ordered (n : Nat) : (c.state n).Ordered := by
  induction n with
  | zero => exact ordered_of_loads_eq_nil c.unloaded
  | succ n ih => exact ih.grows (c.grows n)

theorem seed_eq (n : Nat) : (c.state n).seed = (c.state 0).seed := by
  induction n with
  | zero => rfl
  | succ n ih => exact (c.grows n).seed_eq.trans ih

theorem root_eq (n : Nat) : (c.state n).root = (c.state 0).root := by
  induction n with
  | zero => rfl
  | succ n ih => exact (c.grows n).root_eq.trans ih

/-- What is loaded from a moment to the next has names that lead down, and the rules that its ignore
file gives then. -/
theorem exists_dir_of_loaded (hnew : d ∉ (c.state m).loaded) (hmem : d ∈ (c.state (m + 1)).loaded) :
    ∃ ds rules, (∀ e ∈ ds, IsProper e) ∧ d = dir ds ∧ (d, rules) ∈ (c.state (m + 1)).loads ∧
      (c.state m).rulesIn (c.host m) d = .ok rules := by
  obtain ⟨added, heq, hadded⟩ := (c.grows m).exists_append
  -- the directory is one of those that joined from this moment to the next
  rw [heq, loaded_append] at hmem
  obtain ⟨⟨d, rules⟩, hx, rfl⟩ := List.mem_map.mp ((List.mem_append.mp hmem).resolve_left hnew)
  obtain ⟨-, ⟨ds, hds, hdir⟩, hrules⟩ := hadded _ hx
  refine ⟨ds, rules, hds, hdir, ?_, hrules⟩
  rw [heq]
  exact List.mem_append_right _ hx

/-- **What is loaded stays loaded**, in its place. -/
theorem prefix_loads (hmn : m ≤ n) : (c.state m).loads <+: (c.state n).loads := by
  induction hmn with
  | refl => exact List.prefix_rfl
  | step _ ih => exact ih.trans (c.grows _).prefix_loads

/-- **A directory has the rules that its ignore file gave at the moment when it was loaded.** -/
theorem mem_loads_iff : (d, rules) ∈ (c.state n).loads ↔ ∃ m < n, c.LoadsAt m d rules := by
  constructor
  · induction n with
    | zero =>
      rw [c.unloaded]
      exact fun hmem => absurd hmem List.not_mem_nil
    | succ n ih =>
      obtain ⟨added, heq, hadded⟩ := (c.grows n).exists_append
      intro hmem
      rw [heq] at hmem
      rcases List.mem_append.mp hmem with hmem | hmem
      · obtain ⟨m, hmn, hloads⟩ := ih hmem
        exact ⟨m, Nat.lt_succ_of_lt hmn, hloads⟩
      · obtain ⟨hnew, -, hrules⟩ := hadded _ hmem
        refine ⟨n, Nat.lt_succ_self n, hnew, ?_, hrules⟩
        rw [heq, loaded_append]
        exact List.mem_append_right _ (List.mem_map_of_mem hmem)
  · rintro ⟨m, hmn, hnew, hmem, hrules⟩
    obtain ⟨_, rules', -, -, hloads, hrules'⟩ := c.exists_dir_of_loaded hnew hmem
    obtain rfl : rules' = rules := Except.ok.inj (hrules'.symm.trans hrules)
    exact (c.prefix_loads (Nat.succ_le_of_lt hmn)).subset hloads

theorem mem_blocks_iff :
    (d, rules) ∈ (c.state n).blocks ↔ rules ≠ [] ∧ ∃ m < n, c.LoadsAt m d rules := by
  rw [blocks, List.mem_filter, c.mem_loads_iff, decide_eq_true_iff, and_comm]

/-- **What the ignore file of a directory gives are the rules on the lines of `.gitignore`.** -/
theorem loadsAt_iff {b : Pathname} (hb : b.IsNormal) (hroot : (c.state 0).root = b.dirText) :
    c.LoadsAt m d rules ↔ d ∉ (c.state m).loaded ∧ d ∈ (c.state (m + 1)).loaded ∧
      ((c.host m).readLines (b.dirText ++ d ++ ".gitignore".toList)).map
        (·.filterMap (Rule.ofLine? (b.dirText ++ d) false)) = .ok rules := by
  refine and_congr_right fun hnew => and_congr_right fun hmem => ?_
  obtain ⟨ds, _, hds, rfl, -, -⟩ := c.exists_dir_of_loaded hnew hmem
  rw [rulesIn_dir hb ((c.root_eq m).trans hroot) hds]
  rfl

end Course
end Hierarchy

/-! ## Filters in use -/

/-- What is written is written at a path that leads down. -/
def Event.LeadsDown : Event → Prop
  | .write path _ => FileSystem.LeadsDown path
  | .act _ | .remove _ => True

instance (event : Event) : Decidable event.LeadsDown :=
  match event with
  | .write path _ => inferInstanceAs (Decidable (FileSystem.LeadsDown path))
  | .act _ | .remove _ => .isTrue trivial

namespace Scene
variable {b : Pathname} {s : Scene} {events : List Event}

/-- The policy of the filter in use. -/
def policy (s : Scene) : Policy := s.session.filter.policy

theorem run_concat (s : Scene) (events : List Event) (event : Event) :
    s.run (events ++ [event]) = (s.run events).step event :=
  List.foldl_concat ..

/-- All names lead down, and iterations are inside of directories that are loaded. -/
structure Orderly (b : Pathname) (s : Scene) : Prop where
  files : s.host.files.Proper
  base : s.session.filter.resolver.base = b
  rooted : s.policy.RootedAt b
  frames : ∀ i ∈ s.session.iterations, ∀ frames, i.walk = .inside frames →
    ∀ f ∈ frames, ∃ ds, f.Within b s.policy ds

/-- **Nothing that is done with a filter does more than load ignore files**, each behind those of
the directories above it. -/
theorem Orderly.act (hb : b.IsNormal) (hs : s.Orderly b) (a : Action) :
    (s.step (.act a)).Orderly b ∧ s.policy.Grows s.host (s.step (.act a)).policy := by
  have hbase : (s.step (.act a)).session.filter.resolver.base = b := by
    rw [← hs.base]
    show (s.session.step s.host a).filter.resolver.base = _
    rw [Session.step_filter_eq]
  have hnormal : s.session.filter.resolver.base.IsNormal := hs.base ▸ hb
  cases a with
  | ask q =>
    have hgrows : s.policy.Grows s.host (s.step (.act (.ask q))).policy :=
      s.session.filter.ask_grows hnormal q
    refine ⟨⟨hs.files, hbase, hgrows.rootedAt hs.rooted, fun i hi frames hwalk f hf => ?_⟩, hgrows⟩
    obtain ⟨ds, hds⟩ := hs.frames i hi frames hwalk f hf
    exact ⟨ds, hds.mono hgrows.extends⟩
  | start =>
    refine ⟨⟨hs.files, hbase, hs.rooted, fun i hi frames hwalk => ?_⟩, .refl _⟩
    rcases List.mem_append.mp hi with hi | hi
    · exact hs.frames i hi frames hwalk
    · rw [List.mem_singleton.mp hi] at hwalk
      cases hwalk
  | advance n wanted =>
    rw [step, Session.step] at hbase ⊢
    cases hn : s.session.iterations[n]? with
    | none => exact ⟨hs, .refl _⟩
    | some i =>
      have hi := hs.frames i (List.mem_of_getElem? hn)
      rw [← hs.base] at hi
      obtain ⟨hgrows, hframes⟩ := s.session.filter.advance_grows hs.files hnormal
        (hs.base.symm ▸ hs.rooted) hi wanted
      rw [hs.base] at hframes
      rw [hn] at hbase
      refine ⟨⟨hs.files, hbase, hgrows.rootedAt hs.rooted, fun j hj => ?_⟩, hgrows⟩
      · rcases List.mem_or_eq_of_mem_set hj with hj | rfl
        · intro frames hwalk f hf
          obtain ⟨ds, hds⟩ := hs.frames j hj frames hwalk f hf
          exact ⟨ds, hds.mono hgrows.extends⟩
        · exact hframes

/-- **From each moment to the next the ignore files only grow**, on the host as it is then. -/
theorem Orderly.step (hb : b.IsNormal) (hs : s.Orderly b) {event : Event}
    (hevent : event.LeadsDown) :
    (s.step event).Orderly b ∧ s.policy.Grows s.host (s.step event).policy := by
  cases event with
  | act a => exact hs.act hb a
  | write path e => exact ⟨⟨hs.files.put hevent e, hs.base, hs.rooted, hs.frames⟩, .refl _⟩
  | remove path => exact ⟨⟨hs.files.remove path, hs.base, hs.rooted, hs.frames⟩, .refl _⟩

theorem Orderly.run (hb : b.IsNormal) (hs : s.Orderly b)
    (hevents : ∀ event ∈ events, event.LeadsDown) : (s.run events).Orderly b := by
  induction events generalizing s with
  | nil => exact hs
  | cons event events ih =>
    exact ih (hs.step hb (hevents event List.mem_cons_self)).1
      fun e he => hevents e (List.mem_cons_of_mem event he)

/-- What is there after the first events has grown when one more of them has happened. -/
theorem Orderly.grows_run_take (hb : b.IsNormal) (hs : s.Orderly b)
    (hevents : ∀ event ∈ events, event.LeadsDown) (n : Nat) :
    (s.run (events.take n)).policy.Grows (s.run (events.take n)).host
      (s.run (events.take (n + 1))).policy := by
  have hrun : (s.run (events.take n)).Orderly b :=
    hs.run hb fun event he => hevents event (List.mem_of_mem_take he)
  rw [List.take_add_one]
  cases hn : events[n]? with
  | none =>
    rw [Option.toList_none, List.append_nil]
    exact .refl _
  | some event =>
    have hnext := (hrun.step hb (hevents event (List.mem_of_getElem? hn))).2
    rwa [Option.toList_some, run_concat]

/-- **The ignore files of a filter in use have a course.** -/
theorem Orderly.exists_course (hb : b.IsNormal) (hs : s.Orderly b)
    (hevents : ∀ event ∈ events, event.LeadsDown) {g : Hierarchy}
    (hg : s.policy.hierarchy = some g) (hloads : g.loads = []) :
    ∃ c : Hierarchy.Course, c.state 0 = g ∧
      (∀ n, c.host n = (s.run (events.take n)).host) ∧
      ∀ n, (s.run (events.take n)).policy.hierarchy = some (c.state n) := by
  have hgrows := hs.grows_run_take hb hevents
  have hsome : ∀ n, ∃ g, (s.run (events.take n)).policy.hierarchy = some g := by
    intro n
    induction n with
    | zero => exact ⟨g, hg⟩
    | succ n ih =>
      obtain ⟨g', hg'⟩ := ih
      obtain ⟨g'', hg'', -⟩ := (hgrows n).exists_after hg'
      exact ⟨g'', hg''⟩
  choose state hstate using hsome
  have hzero : state 0 = g := Option.some.inj ((hstate 0).symm.trans hg)
  refine ⟨⟨fun n => (s.run (events.take n)).host, state, hzero ▸ hloads, fun n => ?_⟩, hzero,
    fun n => rfl, hstate⟩
  obtain ⟨g'', hg'', hgrown⟩ := (hgrows n).exists_after (hstate n)
  obtain rfl := Option.some.inj (hg''.symm.trans (hstate (n + 1)))
  exact hgrown

end Scene

/-! ## The rules of a filter -/

namespace Filter
variable {h : Host} {plan : FilterPlan} {f : Filter}

/-- **The ignore files that a filter knows, and the rules that it has from them, at every moment of
its use.**  The filter is one that consults ignore files, and questions and iterations of it go on
in turns while files change; any of these may end with an error.  Of the files it is only asked that
no name among them is empty, `.` or `..`.  The root is loaded at every moment, and with each
directory those above it; what is loaded stays loaded.  The rules are those that the filter was
created with, of the version control directory, the ignore file for all repositories, that of the
repository and that of the root, in this order, and behind them one block for each directory whose
ignore file gave rules at the moment when it was loaded; no directory has two blocks, and none has
one behind that of a directory below it. -/
theorem loads_of_run (hcwd : h.cwd.head? = some '/') (hfs : h.files.Proper)
    (hf : create h plan = .ok f) (hfiles : f.config.ignoreFiles ≠ .off) {events : List Event}
    (hevents : ∀ event ∈ events, event.LeadsDown) :
    let moment := fun n => Scene.run ⟨h, ⟨f, [], []⟩⟩ (events.take n)
    ∃ (file : Text) (g : Nat → Hierarchy),
      Hierarchy.globalFile h f.root f.config.globalFile = .ok file ∧
      ∀ n, (moment n).policy.hierarchy = some (g n) ∧
        [] ∈ (g n).loaded ∧ (∀ d ∈ (g n).loaded, ∀ a ∈ ancestors d, a ∈ (g n).loaded) ∧
        (∀ m ≤ n, (g m).loaded ⊆ (g n).loaded) ∧
        (g n).rules =
          [(Rule.ofLine? ['/'] false ".git".toList).toList,
           h.ignoreRules f.root (normalize (join f.root (h.homes.expand file))),
           h.ignoreRules f.root (f.root ++ ".git/info/exclude".toList),
           h.ignoreRules f.root (f.root ++ ".gitignore".toList)].flatten ++
            (g n).blocks.flatMap (·.2) ∧
        ((g n).blocks.map (·.1)).Nodup ∧
        ((g n).blocks.Pairwise fun x y => y.1 ∉ ancestors x.1) ∧
        ∀ d rules, (d, rules) ∈ (g n).blocks ↔ rules ≠ [] ∧ ∃ m < n, d ∉ (g m).loaded ∧
          d ∈ (g (m + 1)).loaded ∧
          ((moment m).host.readLines (f.root ++ d ++ ".gitignore".toList)).map
            (·.filterMap (Rule.ofLine? (f.root ++ d) false)) = .ok rules := by
  intro moment
  obtain ⟨g₀, file, hg₀, hfile, hseed⟩ := exists_seed_eq_commonFiles hcwd hf hfiles
  have h₀ : f.Fresh := fresh_of_create hcwd hf
  have hbegin : Scene.Orderly f.resolver.base ⟨h, ⟨f, [], []⟩⟩ :=
    ⟨hfs, rfl, h₀.rooted, fun i hi => absurd hi List.not_mem_nil⟩
  obtain ⟨c, hzero, hhost, hstate⟩ :=
    hbegin.exists_course h₀.normal hevents hg₀ (h₀.unloaded g₀ hg₀)
  have hroot : (c.state 0).root = f.resolver.base.dirText := hzero ▸ h₀.rooted.hierarchy g₀ hg₀
  have hglobal : Source.pathFrom h f.root file = normalize (join f.root (h.homes.expand file)) := by
    rw [h₀.root_eq]
    exact Host.absolute_of_head? (head?_join h₀.normal.head?_dirText _)
  refine ⟨file, c.state, hfile, fun n => ⟨hstate n, List.mem_cons_self, (c.ordered n).closed,
    fun m hmn => Hierarchy.loaded_subset_of_prefix (c.prefix_loads hmn), ?_,
    (c.ordered n).nodup_blocks, (c.ordered n).pairwise_blocks, fun d rules => ?_⟩⟩
  · rw [Hierarchy.rules_eq_blocks, c.seed_eq, hzero, hseed, Hierarchy.commonFiles, hglobal]
    rfl
  · rw [c.mem_blocks_iff, h₀.root_eq]
    simp only [c.loadsAt_iff h₀.normal hroot, hhost]
    rfl

/-- A root with an ignore file, one for its repository and one for all repositories, and with three
nested ignore files, of which that of `d` cannot be opened. -/
def brokenHost : Host :=
  { files := .ofEntries
      [("/u/.config/git/ignore".toList, { kind := .file [118] }),
       ("/r/.git/info/exclude".toList, { kind := .file [119] }),
       ("/r/.gitignore".toList, { kind := .file [120] }),
       ("/r/a/.gitignore".toList, { kind := .file [121] }),
       ("/r/d/.gitignore".toList, ⟨.file [122], { opening := some (.other "EIO".toList) }⟩),
       ("/r/d/e/.gitignore".toList, { kind := .file [113] }),
       ("/r/d/e/f".toList, { kind := .file [] })]
    cwd := "/r".toList
    homes := ⟨some "/u".toList, []⟩
    configHome := none }

/-- While an iteration stands behind its first file, a question and another iteration end with an
error at `d`; then the ignore file of `d` is written anew, the question is asked again, an ignore
file in `a` is written, and the first iteration goes on to its end. -/
def brokenEvents : List Event :=
  [.act .start, .act (.advance 0 (some 1)), .act (.ask { path := "/r/d/e/f".toList }),
   .act .start, .act (.advance 1 none), .write "/r/d/.gitignore".toList { kind := .file [112] },
   .act (.ask { path := "/r/d/e/f".toList }),
   .write "/r/a/b/.gitignore".toList { kind := .file [110] }, .act (.advance 0 none)]

/-- The first question and the second iteration end with the error, and what is loaded is in order:
behind the rules of the four sources come those of the nested files, as they were when they were
loaded. -/
theorem loads_of_brokenEvents : ∃ f g, create brokenHost {} = .ok f ∧
    let s := Scene.run ⟨brokenHost, ⟨f, [], []⟩⟩ brokenEvents
    s.session.answers = [.error (.access (.other "EIO".toList)), .ok true] ∧
      s.session.iterations.map (·.error) = [none, some (.other "EIO".toList)] ∧
      s.policy.hierarchy = some g ∧
      g.blocks.map (·.1) = ["a/", "d/", "d/e/", "a/b/"].map (·.toList) ∧
      (∀ d ∈ g.loaded, ∀ a ∈ ancestors d, a ∈ g.loaded) ∧
      (g.blocks.Pairwise fun x y => y.1 ∉ ancestors x.1) ∧
      g.rules.map Rule.line = [".git", "v", "w", "x", "y", "p", "q", "n"].map (·.toList) ∧
      g.rules =
        [(Rule.ofLine? ['/'] false ".git".toList).toList,
         brokenHost.ignoreRules "/r/".toList "/u/.config/git/ignore".toList,
         brokenHost.ignoreRules "/r/".toList "/r/.git/info/exclude".toList,
         brokenHost.ignoreRules "/r/".toList "/r/.gitignore".toList].flatten ++
          g.blocks.flatMap (·.2) := by
  have hfs : brokenHost.files.Proper := by decide +kernel
  have hevents : ∀ event ∈ brokenEvents, event.LeadsDown := by decide +kernel
  obtain ⟨f, hf, hfacts⟩ : ∃ f, create brokenHost {} = .ok f ∧
      decide (f.config.ignoreFiles ≠ .off ∧ f.root = "/r/".toList ∧
        (Hierarchy.globalFile brokenHost f.root f.config.globalFile).toOption =
          some "/u/.config/git/ignore".toList ∧
        let s := Scene.run ⟨brokenHost, ⟨f, [], []⟩⟩ brokenEvents
        s.session.answers = [.error (.access (.other "EIO".toList)), .ok true] ∧
          s.session.iterations.map (·.error) = [none, some (.other "EIO".toList)] ∧
          s.policy.hierarchy.map (fun g => (g.blocks.map (·.1), g.rules.map Rule.line)) =
            some (["a/", "d/", "d/e/", "a/b/"].map (·.toList),
              [".git", "v", "w", "x", "y", "p", "q", "n"].map (·.toList))) = true :=
    exists_eq_ok_of_any (by decide +kernel)
  obtain ⟨hfiles, hroot, hglobal, hanswers, hiterations, hloads⟩ := of_decide_eq_true hfacts
  obtain ⟨file, g, hfile, hall⟩ := loads_of_run rfl hfs hf hfiles hevents
  obtain ⟨hg, -, hclosed, -, hrules, -, hordered, -⟩ := hall brokenEvents.length
  rw [hfile] at hglobal
  obtain rfl : file = "/u/.config/git/ignore".toList := Option.some.inj hglobal
  simp only [List.take_length] at hg
  rw [hg] at hloads
  obtain ⟨hblocks, hlines⟩ := Prod.mk.inj (Option.some.inj hloads)
  rw [hroot] at hrules
  exact ⟨f, g brokenEvents.length, hf, hanswers, hiterations, hg, hblocks, hclosed, hordered,
    hlines, hrules⟩

end Filter
end PathFilter
