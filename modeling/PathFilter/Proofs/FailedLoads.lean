import PathFilter.Proofs.LoadOrder

/-! # Ignore files that fail to be loaded

An ignore file is loaded in three steps: it is read, its rules are put behind those that are known,
and its directory is marked as loaded.  Each step changes what is there, and what it has changed
stays when a later one fails (`Hierarchy.loading`).  Only the first step can fail.  **So a load that
fails leaves no trace**, and loading in steps is loading at once (`run_loading`).

For the directories above a path this is done from the highest down, until one of them fails.

* What is there then is what was there before, with the directories before the failing one loaded
  in this order (`exists_of_loadAll_eq_error`, `loadAll_eq_ok_iff`).
* **When the failing file can be read, and those that could be read are read as before, loading the
  directories once more leads where it would have led at first** (`loadAll_again`): those that have
  been loaded are passed over, and the others are loaded behind them.
-/

namespace PathFilter
open PathFilter.Path

/-! ## Directories above a path -/

theorem Path.prefix_of_mem_descend {above d : Text} {cs : List Text} (hd : d ∈ descend above cs) :
    above <+: d ∧ above ≠ d := by
  induction cs generalizing above with
  | nil => exact absurd hd List.not_mem_nil
  | cons c cs ih =>
    have hfirst : above <+: above ++ c ++ ['/'] ∧ above.length < (above ++ c ++ ['/']).length := by
      refine ⟨(List.prefix_append _ _).trans (List.prefix_append _ _), ?_⟩
      simp only [List.length_append, List.length_singleton]
      omega
    have hprefix : above ++ c ++ ['/'] <+: d := by
      rcases List.mem_cons.mp hd with rfl | hd
      · exact List.prefix_rfl
      · exact (ih hd).1
    exact ⟨hfirst.1.trans hprefix, fun heq =>
      absurd (heq ▸ hprefix.length_le) (Nat.not_le.mpr hfirst.2)⟩

/-- **The directories above a path are ordered from the highest down**, each above all that come
after it. -/
theorem Path.pairwise_ancestors (path : Text) :
    (ancestors path).Pairwise fun d e => d <+: e ∧ d ≠ e := by
  rw [ancestors]
  generalize ([] : Text) = above
  induction (Text.splitOn '/' (Text.dropTrailing (· = '/') path)).dropLast generalizing above with
  | nil => exact .nil
  | cons c cs ih => exact .cons (fun d hd => prefix_of_mem_descend hd) (ih _)

theorem Path.nodup_ancestors (path : Text) : (ancestors path).Nodup :=
  (pairwise_ancestors path).imp And.right

namespace Hierarchy
variable {h h' : Host} {g g' : Hierarchy} {dir : Text} {present : Option Bool} {e : Errno}
  {dirs : List Text}

/-! ## One directory -/

theorem load_of_mem (hmem : dir ∈ g.loaded) : g.load h dir present = .ok g := by
  rw [load, if_pos (List.contains_iff_mem.mpr hmem)]

theorem load_of_not_mem (hnew : dir ∉ g.loaded) : g.load h dir none =
    (g.rulesIn h dir).map fun rules => { g with loads := g.loads ++ [(dir, rules)] } := by
  rw [load, if_neg fun hc => hnew (List.contains_iff_mem.mp hc),
    if_neg (Option.some_ne_none false).symm]

/-- All that loading a directory can come to whose ignore file may be there. -/
theorem load_none_cases (h : Host) (g : Hierarchy) (dir : Text) :
    dir ∈ g.loaded ∧ g.load h dir none = .ok g ∨
      dir ∉ g.loaded ∧
        ((∃ e, g.rulesIn h dir = .error e ∧ g.load h dir none = .error e) ∨
          ∃ rules, g.rulesIn h dir = .ok rules ∧
            g.load h dir none = .ok { g with loads := g.loads ++ [(dir, rules)] }) := by
  by_cases hmem : dir ∈ g.loaded
  · exact .inl ⟨hmem, load_of_mem hmem⟩
  · rw [load_of_not_mem hmem]
    cases g.rulesIn h dir with
    | error e => exact .inr ⟨hmem, .inl ⟨e, rfl, rfl⟩⟩
    | ok rules => exact .inr ⟨hmem, .inr ⟨rules, rfl, rfl⟩⟩

/-- Why loading a directory fails: it has not been loaded, and its ignore file cannot be read. -/
theorem of_load_none_eq_error (hload : g.load h dir none = .error e) :
    dir ∉ g.loaded ∧ h.readLines (g.ignoreFile h dir) = .error e := by
  rcases load_none_cases h g dir with ⟨-, hload'⟩ | ⟨hnew, ⟨e', hrules, hload'⟩ | ⟨_, -, hload'⟩⟩
  all_goals cases hload.symm.trans hload'
  refine ⟨hnew, ?_⟩
  rw [rulesIn] at hrules
  cases hlines : h.readLines (g.ignoreFile h dir) with
  | error e' =>
    rw [hlines] at hrules
    cases hrules
    rfl
  | ok lines =>
    rw [hlines] at hrules
    cases hrules

/-! ### Loading in steps -/

/-- What loading changes: the rules that are known, and the directories that are marked. -/
structure Tables where
  rules : List Rule
  loaded : List Text

/-- The tables of a hierarchy. -/
def tables (g : Hierarchy) : Tables := ⟨g.rules, g.loaded⟩

/-- Loads the ignore file of a directory step by step, below the root of a hierarchy.  What has been
changed stays when a later step fails. -/
def loading (h : Host) (g : Hierarchy) (dir : Text) (present : Option Bool) :
    ExceptT Errno (StateM Tables) Unit := do
  if (← get).loaded.contains dir then return
  if present ≠ some false then
    let rules ← ExceptT.mk (pure (g.rulesIn h dir))
    modify fun t => { t with rules := t.rules ++ rules }
  modify fun t => { t with loaded := t.loaded ++ [dir] }

theorem tables_append (g : Hierarchy) (rules : List Rule) :
    tables { g with loads := g.loads ++ [(dir, rules)] } =
      ⟨g.rules ++ rules, g.loaded ++ [dir]⟩ := by
  rw [tables, loaded_append]
  simp [Hierarchy.rules]

/-- **Loading in steps is loading at once**, and where it fails it has changed nothing. -/
theorem run_loading (h : Host) (g : Hierarchy) (dir : Text) (present : Option Bool) :
    (∃ g', g.load h dir present = .ok g' ∧
      (loading h g dir present).run.run g.tables = (.ok (), g'.tables)) ∨
    ∃ e, g.load h dir present = .error e ∧
      (loading h g dir present).run.run g.tables = (.error e, g.tables) := by
  have hrun : (loading h g dir present).run.run g.tables =
      (if g.loaded.contains dir then pure () else do
        if present ≠ some false then
          let rules ← ExceptT.mk (pure (g.rulesIn h dir))
          modify fun t => { t with rules := t.rules ++ rules }
        modify fun t => { t with loaded := t.loaded ++ [dir] } :
        ExceptT Errno (StateM Tables) Unit).run.run g.tables := rfl
  rw [hrun, load]
  by_cases hmem : g.loaded.contains dir = true
  · rw [if_pos hmem, if_pos hmem]
    exact .inl ⟨g, rfl, rfl⟩
  · rw [if_neg hmem, if_neg hmem]
    by_cases hpresent : present = some false
    · rw [if_pos hpresent, if_neg (not_not_intro hpresent)]
      refine .inl ⟨_, rfl, ?_⟩
      rw [tables_append, List.append_nil]
      rfl
    · rw [if_neg hpresent, if_pos hpresent]
      cases g.rulesIn h dir with
      | error e => exact .inr ⟨e, rfl, rfl⟩
      | ok rules =>
        refine .inl ⟨_, rfl, ?_⟩
        rw [tables_append]
        rfl

/-! ## Directories in a row -/

theorem loadAll_cons_of_ok (hload : g.load h dir none = .ok g') :
    g.loadAll h (dir :: dirs) = g'.loadAll h dirs := by
  rw [loadAll, hload]

theorem loadAll_cons_of_error (hload : g.load h dir none = .error e) :
    g.loadAll h (dir :: dirs) = (g, .error e) := by
  rw [loadAll, hload]

/-- Where loading directories fails, those before one of them have been loaded, and this one has
failed. -/
theorem exists_of_loadAll_eq_error (hfail : g.loadAll h dirs = (g', .error e)) :
    ∃ before dir after, dirs = before ++ dir :: after ∧ g.loadAll h before = (g', .ok ()) ∧
      g'.load h dir none = .error e := by
  induction dirs generalizing g with
  | nil => cases hfail
  | cons d dirs ih =>
    cases hload : g.load h d none with
    | error e' =>
      rw [loadAll_cons_of_error hload] at hfail
      cases hfail
      exact ⟨[], d, dirs, rfl, rfl, hload⟩
    | ok g₁ =>
      rw [loadAll_cons_of_ok hload] at hfail
      obtain ⟨before, dir, after, rfl, hbefore, hdir⟩ := ih hfail
      exact ⟨d :: before, dir, after, rfl, (loadAll_cons_of_ok hload).trans hbefore, hdir⟩

/-- **Different directories that can be loaded are loaded in their order**, those that are loaded
already passed over. -/
theorem loadAll_eq_ok_iff (hdirs : dirs.Nodup) : g.loadAll h dirs = (g', .ok ()) ↔
    ∃ added, (dirs.filter (· ∉ g.loaded)).mapM (fun d => (g.rulesIn h d).map (d, ·)) = .ok added ∧
      g' = { g with loads := g.loads ++ added } := by
  induction dirs generalizing g with
  | nil =>
    constructor
    · intro heq
      cases heq
      exact ⟨[], rfl, by rw [List.append_nil]⟩
    · rintro ⟨added, hadded, rfl⟩
      rw [mapM_nil_eq_ok_iff.mp hadded, List.append_nil]
      rfl
  | cons d dirs ih =>
    obtain ⟨hd, hdirs⟩ := List.nodup_cons.mp hdirs
    rcases load_none_cases h g d with ⟨hmem, hload⟩ | ⟨hnew, hload⟩
    · rw [loadAll_cons_of_ok hload, List.filter_cons_of_neg (by simpa using hmem)]
      exact ih hdirs
    · rw [List.filter_cons_of_pos (by simpa using hnew)]
      simp only [mapM_cons_eq_ok_iff, map_eq_ok_iff]
      obtain ⟨e, hrules, hload⟩ | ⟨rules, hrules, hload⟩ := hload
      · rw [loadAll_cons_of_error hload, hrules]
        exact iff_of_false nofun nofun
      · -- the other directories are not the one that has been loaded
        have hrest :
            dirs.filter (· ∉ Hierarchy.loaded { g with loads := g.loads ++ [(d, rules)] }) =
              dirs.filter (· ∉ g.loaded) := by
          refine List.filter_congr fun x hx => ?_
          have hne : x ≠ d := fun heq => hd (heq ▸ hx)
          simp [loaded_append, hne]
        rw [loadAll_cons_of_ok hload, ih hdirs, hrest, hrules]
        constructor
        · rintro ⟨added, hadded, rfl⟩
          exact ⟨(d, rules) :: added, ⟨_, added, ⟨rules, rfl, rfl⟩, hadded, rfl⟩,
            by rw [List.append_assoc, List.singleton_append]⟩
        · rintro ⟨_, ⟨_, added, ⟨rules', heq, rfl⟩, hadded, rfl⟩, rfl⟩
          cases heq
          exact ⟨added, hadded, by rw [List.append_assoc, List.singleton_append]⟩

/-- What is loaded stays loaded. -/
theorem loaded_subset_loadAll (h : Host) (g : Hierarchy) (dirs : List Text) :
    g.loaded ⊆ (g.loadAll h dirs).1.loaded := by
  induction dirs generalizing g with
  | nil => exact List.Subset.refl _
  | cons d dirs ih =>
    rcases load_none_cases h g d with ⟨-, hload⟩ | ⟨-, ⟨e, -, hload⟩ | ⟨rules, -, hload⟩⟩
    · rw [loadAll_cons_of_ok hload]
      exact ih g
    · rw [loadAll_cons_of_error hload]
      exact List.Subset.refl _
    · rw [loadAll_cons_of_ok hload]
      refine fun x hx => ih _ ?_
      rw [loaded_append]
      exact List.mem_append_left _ hx

/-- Directories can be loaded if the ignore files of those that have not been loaded can be read. -/
theorem exists_loadAll_eq_ok
    (hread : ∀ d ∈ dirs, d ∉ g.loaded → ∃ rules, g.rulesIn h d = .ok rules) :
    ∃ g', g.loadAll h dirs = (g', .ok ()) := by
  induction dirs generalizing g with
  | nil => exact ⟨g, rfl⟩
  | cons d dirs ih =>
    rcases load_none_cases h g d with ⟨-, hload⟩ | ⟨hnew, ⟨e, hrules, -⟩ | ⟨rules, -, hload⟩⟩
    · rw [loadAll_cons_of_ok hload]
      exact ih fun x hx => hread x (List.mem_cons_of_mem d hx)
    · obtain ⟨rules, hrules'⟩ := hread d List.mem_cons_self hnew
      cases hrules.symm.trans hrules'
    · rw [loadAll_cons_of_ok hload]
      refine ih fun x hx hx' => hread x (List.mem_cons_of_mem d hx) fun hmem => hx' ?_
      rw [loaded_append]
      exact List.mem_append_left _ hmem

/-- **Directories are loaded once more as they would have been at first**, if those that could be
loaded give the same rules. -/
theorem loadAll_again (hsame : ∀ d ∈ dirs, d ∉ g.loaded →
    Follows (g.rulesIn h d) (g.rulesIn h' d)) :
    (g.loadAll h dirs).1.loadAll h' dirs = g.loadAll h' dirs := by
  induction dirs generalizing g with
  | nil => rfl
  | cons d dirs ih =>
    rcases load_none_cases h g d with ⟨hmem, hload⟩ | ⟨hnew, ⟨e, -, hload⟩ | ⟨rules, hrules, hload⟩⟩
    · rw [loadAll_cons_of_ok hload, loadAll_cons_of_ok (load_of_mem hmem),
        loadAll_cons_of_ok (load_of_mem (loaded_subset_loadAll h g dirs hmem))]
      exact ih fun x hx => hsame x (List.mem_cons_of_mem d hx)
    · rw [loadAll_cons_of_error hload]
    · have hrules' : g.rulesIn h' d = .ok rules := hsame d List.mem_cons_self hnew rules hrules
      have hload' : g.load h' d none = .ok { g with loads := g.loads ++ [(d, rules)] } := by
        rw [load_of_not_mem hnew, hrules']
        rfl
      have hsub : g.loaded ⊆ Hierarchy.loaded { g with loads := g.loads ++ [(d, rules)] } := by
        rw [loaded_append]
        exact List.subset_append_left _ _
      have hmem : d ∈ Hierarchy.loaded { g with loads := g.loads ++ [(d, rules)] } := by
        rw [loaded_append]
        exact List.mem_append_right _ (List.mem_singleton_self d)
      rw [loadAll_cons_of_ok hload, loadAll_cons_of_ok hload',
        loadAll_cons_of_ok (load_of_mem (loaded_subset_loadAll h _ dirs hmem))]
      exact ih fun x hx hx' => hsame x (List.mem_cons_of_mem d hx) fun hmem => hx' (hsub hmem)

/-! ### Loading in steps -/

/-- Loads the ignore files of directories in order, step by step. -/
def loadingAll (h : Host) (g : Hierarchy) : List Text → ExceptT Errno (StateM Tables) Unit
  | [] => pure ()
  | dir :: dirs => do
    loading h g dir none
    loadingAll h g dirs

/-- Where the files are found depends on the root only. -/
theorem loadingAll_append (added : List (Text × List Rule)) (dirs : List Text) :
    loadingAll h { g with loads := g.loads ++ added } dirs = loadingAll h g dirs := by
  induction dirs with
  | nil => rfl
  | cons dir dirs ih =>
    rw [loadingAll, loadingAll, ih]
    rfl

/-- **Loading directories in steps is loading them at once.** -/
theorem run_loadingAll (h : Host) (g : Hierarchy) (dirs : List Text) :
    (loadingAll h g dirs).run.run g.tables =
      ((g.loadAll h dirs).2, (g.loadAll h dirs).1.tables) := by
  induction dirs generalizing g with
  | nil => rfl
  | cons dir dirs ih =>
    rw [loadingAll, ExceptT.run_bind, StateT.run_bind]
    rcases g.run_loading h dir none with ⟨g₁, hload, hrun⟩ | ⟨e, hload, hrun⟩
    · rw [hrun, loadAll_cons_of_ok hload, ← ih g₁]
      rcases load_none_cases h g dir with ⟨-, hload'⟩ | ⟨-, ⟨e, -, hload'⟩ | ⟨rules, -, hload'⟩⟩
      all_goals cases hload.symm.trans hload'
      · rfl
      · rw [loadingAll_append]
        rfl
    · rw [hrun, loadAll_cons_of_error hload]
      rfl

/-! ## Directories above a path that fail to be loaded -/

/-- Where the directories above a path fail to be loaded, those above one of them have been loaded,
in order; this one cannot be read, and nothing of it or of those below has been loaded. -/
theorem exists_of_loadAbove_eq_error {path : Text} (hfail : g.loadAbove h path = (g', .error e)) :
    ∃ before dir after added, ancestors path = before ++ dir :: after ∧
      dir ∉ g.loaded ∧ h.readLines (g.ignoreFile h dir) = .error e ∧
      g.loadAll h before = (g', .ok ()) ∧
      (before.filter (· ∉ g.loaded)).mapM (fun d => (g.rulesIn h d).map (d, ·)) = .ok added ∧
      g' = { g with loads := g.loads ++ added } ∧
      ∀ d ∈ dir :: after, d ∈ g'.loaded → d ∈ g.loaded := by
  obtain ⟨before, dir, after, hpath, hbefore, hdir⟩ := exists_of_loadAll_eq_error hfail
  have hnodup := hpath ▸ nodup_ancestors path
  obtain ⟨hbefores, -, hdisjoint⟩ := List.nodup_append.mp hnodup
  obtain ⟨added, hadded, rfl⟩ := (loadAll_eq_ok_iff hbefores).mp hbefore
  have hloaded : ∀ d ∈ dir :: after,
      d ∈ Hierarchy.loaded { g with loads := g.loads ++ added } → d ∈ g.loaded := by
    intro d hd hmem
    rw [loaded_append] at hmem
    refine (List.mem_append.mp hmem).resolve_right fun hmem => ?_
    -- what has been added is for directories before the failing one
    obtain ⟨x, hx, rfl⟩ := List.mem_map.mp hmem
    obtain ⟨d', hd', hx'⟩ := exists_of_mem_mapM hadded hx
    obtain ⟨_, -, rfl⟩ := map_eq_ok_iff.mp hx'
    exact hdisjoint d' (List.mem_of_mem_filter hd') d' hd rfl
  obtain ⟨hnew, hread⟩ := of_load_none_eq_error hdir
  refine ⟨before, dir, after, added, hpath, fun hmem => hnew ?_, hread, hbefore, hadded, rfl,
    hloaded⟩
  rw [loaded_append]
  exact List.mem_append_left _ hmem

/-- **A failed load leaves no trace.**  The hierarchy is any, and so is the host.  Where loading a
directory fails, the rules that are known and the directories that are marked are those from before.
Where loading the directories above a path fails, those above one of them have been loaded, from the
highest down, each behind the others, and nothing of this one or of those below it, whose ignore
file cannot be read.  When files have changed so that the ignore files that have not been loaded
before can all be read, with the same lines as those that could be read already, then loading the
directories once more succeeds, and what is there is what it would be if it had not failed. -/
theorem no_trace_of_failure (h : Host) (g : Hierarchy) :
    (∀ dir present e, g.load h dir present = .error e →
      (loading h g dir present).run.run g.tables = (.error e, g.tables)) ∧
    ∀ path g' e, g.loadAbove h path = (g', .error e) →
      (loadingAll h g (ancestors path)).run.run g.tables = (.error e, g'.tables) ∧
      (∃ before dir after added, ancestors path = before ++ dir :: after ∧
        (ancestors path).Pairwise (fun d e => d <+: e ∧ d ≠ e) ∧
        dir ∉ g.loaded ∧ h.readLines (g.ignoreFile h dir) = .error e ∧
        g.loadAll h before = (g', .ok ()) ∧
        (before.filter (· ∉ g.loaded)).mapM (fun d => (g.rulesIn h d).map (d, ·)) = .ok added ∧
        g' = { g with loads := g.loads ++ added } ∧
        ∀ d ∈ dir :: after, d ∈ g'.loaded → d ∈ g.loaded) ∧
      ∀ files : FileSystem, let mended : Host := { h with files }
        (∀ d ∈ ancestors path, d ∉ g.loaded →
          Follows (h.readLines (g.ignoreFile h d)) (mended.readLines (g.ignoreFile h d)) ∧
            ∃ lines, mended.readLines (g.ignoreFile h d) = .ok lines) →
        ∃ g'', g.loadAbove mended path = (g'', .ok ()) ∧
          g'.loadAbove mended path = (g'', .ok ()) ∧
          (loadingAll mended g (ancestors path)).run.run g'.tables = (.ok (), g''.tables) := by
  refine ⟨fun dir present e hfail => ?_, fun path g' e hfail => ⟨?_, ?_, fun files hmended => ?_⟩⟩
  · rcases g.run_loading h dir present with ⟨g', hload, -⟩ | ⟨e', hload, hrun⟩
    · cases hload.symm.trans hfail
    · cases hload.symm.trans hfail
      exact hrun
  · rw [run_loadingAll, ← loadAbove, hfail]
  · obtain ⟨before, dir, after, added, hpath, hrest⟩ := exists_of_loadAbove_eq_error hfail
    exact ⟨before, dir, after, added, hpath, pairwise_ancestors path, hrest⟩
  · have hfirst : ∃ g'', g.loadAbove { h with files } path = (g'', .ok ()) := by
      refine exists_loadAll_eq_ok fun d hd hnew => ?_
      obtain ⟨-, lines, hlines⟩ := hmended d hd hnew
      exact ⟨_, map_eq_ok_iff.mpr ⟨lines, hlines, rfl⟩⟩
    obtain ⟨g'', hfirst⟩ := hfirst
    have hagain : g'.loadAbove { h with files } path = g.loadAbove { h with files } path := by
      have hg' : g' = (g.loadAll h (ancestors path)).1 := congrArg Prod.fst hfail.symm
      rw [hg']
      exact loadAll_again fun d hd hnew => (hmended d hd hnew).1.map _
    have hadded : ∃ added, g' = { g with loads := g.loads ++ added } := by
      obtain ⟨_, _, _, added, -, -, -, -, -, hg', -⟩ := exists_of_loadAbove_eq_error hfail
      exact ⟨added, hg'⟩
    refine ⟨g'', hfirst, hagain.trans hfirst, ?_⟩
    obtain ⟨added, rfl⟩ := hadded
    rw [← loadingAll_append added, run_loadingAll, ← loadAbove, hagain, hfirst]

/-- Ignore files on a way down from a root, of which that of `a/b` cannot be opened. -/
def deepHost : Host :=
  { files := .ofEntries
      [("/r/a/.gitignore".toList, { kind := .file [121, 10, 122] }),
       ("/r/a/b/.gitignore".toList, ⟨.file [117], { opening := some (.other "EIO".toList) }⟩),
       ("/r/a/b/c/.gitignore".toList, { kind := .file [118] })]
    cwd := "/".toList
    homes := ⟨none, []⟩
    configHome := none }

/-- The same, when that of `a/b` has been written anew. -/
def mendedFiles : FileSystem :=
  deepHost.files.put "/r/a/b/.gitignore".toList { kind := .file [117] }

/-- The ignore file of `a` stays loaded when that of `a/b` fails; when this one can be read, it
joins once behind that of `a`, and that of `a/b/c` behind it. -/
theorem no_trace_of_failure_in_deepHost : ∃ g' g'',
    loadAbove deepHost "a/b/c/f".toList ⟨"/r/".toList, [], []⟩ =
      (g', .error (.other "EIO".toList)) ∧
    loadAbove { deepHost with files := mendedFiles } "a/b/c/f".toList g' = (g'', .ok ()) ∧
    loadAbove { deepHost with files := mendedFiles } "a/b/c/f".toList ⟨"/r/".toList, [], []⟩ =
      (g'', .ok ()) ∧
    g'.loads.map (fun x => (x.1, x.2.length)) = [("a/".toList, 2)] ∧
    g''.loads.map (fun x => (x.1, x.2.length)) =
      [("a/".toList, 2), ("a/b/".toList, 1), ("a/b/c/".toList, 1)] := by
  have hfail : ∃ g', loadAbove deepHost "a/b/c/f".toList ⟨"/r/".toList, [], []⟩ =
      (g', .error (.other "EIO".toList)) ∧
      g'.loads.map (fun x => (x.1, x.2.length)) = [("a/".toList, 2)] :=
    ⟨_, Prod.ext rfl (by decide +kernel), by decide +kernel⟩
  obtain ⟨g', hfail, hloads⟩ := hfail
  obtain ⟨-, -, hmended⟩ := (no_trace_of_failure deepHost ⟨"/r/".toList, [], []⟩).2 _ _ _ hfail
  have hread : ∀ d ∈ ancestors "a/b/c/f".toList,
      let file := ignoreFile deepHost ⟨"/r/".toList, [], []⟩ d
      (deepHost.readLines file).toOption.all (fun ls =>
        (Host.readLines { deepHost with files := mendedFiles } file).toOption = some ls) ∧
      (Host.readLines { deepHost with files := mendedFiles } file).toOption.isSome := by
    decide +kernel
  obtain ⟨g'', hfirst, hagain, -⟩ := hmended mendedFiles fun d hd _ => by
    obtain ⟨hsame, hsome⟩ := hread d hd
    refine ⟨fun ls hls => ?_, ?_⟩
    · rw [hls] at hsame
      exact eq_ok_of_toOption (of_decide_eq_true hsame)
    · obtain ⟨ls, hls⟩ := Option.isSome_iff_exists.mp hsome
      exact ⟨ls, eq_ok_of_toOption hls⟩
  refine ⟨g', g'', hfail, hagain, hfirst, hloads, ?_⟩
  have hg'' : g'' = (loadAbove { deepHost with files := mendedFiles } "a/b/c/f".toList
      ⟨"/r/".toList, [], []⟩).1 := congrArg Prod.fst hfirst.symm
  rw [hg'']
  decide +kernel

end Hierarchy
end PathFilter
