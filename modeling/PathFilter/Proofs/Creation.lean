import PathFilter.Proofs.FilterState
import PathFilter.Proofs.Outlines

/-! # What is read to make a filter

To make a filter, the configuration files are read and the files that patterns come from.  A host
reveals what another one does if it has the same outline and what can be read there is read from it
in the same way (`Host.Reveals`).  **A filter that can be made can be made wherever as much is
revealed, and it is the same one** (`Filter.create_follows`).

A host on which one file cannot be opened reveals less than any host that is alike but for that
file.  So a filter that can be made on it is made without that file, and does not depend on its text
(`Filter.create_of_sealed`).
-/

namespace PathFilter
open FileSystem

namespace Host
variable {h h' : Host}

/-- What can be read on the first host is read in the same way on the second one, which has the same
outline. -/
structure Reveals (h h' : Host) : Prop where
  outline : h.outline = h'.outline
  readOr : ∀ {α : Type} (path : Text) (absent : α) (use : Text → α),
    Follows (h.readOr path absent use) (h'.readOr path absent use)

/-- What the outline tells is the same where as much is revealed. -/
theorem Reveals.congr (hr : h.Reveals h') {α : Type} {F : Host → α}
    (hF : ∀ h : Host, F h.outline = F h) : F h = F h' :=
  congr_of_outline_eq hr.outline hF

theorem AlikeBut.reveals {l : Location} (ha : h.AlikeBut l h') : (h.sealed l).Reveals h' :=
  ⟨((h.alikeBut_sealed l).symm.trans ha).outline, fun _ _ _ _ hread => ha.readOr_of_sealed hread⟩

end Host

section
variable {h h' : Host} (hr : h.Reveals h')
include hr

/-! ## Configuration files -/

namespace GitConfig

theorem Settings.ofFile_follows (room : Nat) (file : Text) :
    Follows (Settings.ofFile h room file) (Settings.ofFile h' room file) := by
  induction room generalizing file with
  | zero => exact .refl _
  | succ room ih =>
    rw [Settings.ofFile, Settings.ofFile]
    refine .bind ((hr.readOr file [] Text.lines).mapError Failure.access) (fun lines => ?_)
    refine .bind (.foldlM (fun s a => ?_) _ _) (fun s => .refl _)
    rw [Settings.carryOut, Settings.carryOut]
    split
    · have hpath : includedPath h file a.value = includedPath h' file a.value :=
        hr.congr (F := fun h => includedPath h file a.value) (fun _ => rfl)
      rw [hpath]
      exact (ih _).map _
    · exact .refl _

theorem excludesFile_follows (root config : Text) :
    Follows (excludesFile h root config) (excludesFile h' root config) := by
  have hpath : filePath h config = filePath h' config :=
    hr.congr (F := fun h => filePath h config) (fun _ => rfl)
  have hfile : ∀ file, h.absolute (Path.join root (h.expand file)) =
      h'.absolute (Path.join root (h'.expand file)) := fun file =>
    hr.congr (F := fun h => h.absolute (Path.join root (h.expand file))) (fun _ => rfl)
  rw [excludesFile, excludesFile, settings, settings, hpath]
  simp only [hfile]
  exact .bind (Settings.ofFile_follows hr _ _) (fun _ => .refl _)

theorem firstExcludesFile_follows (root : Text) (configs : List Text) :
    Follows (firstExcludesFile h root configs) (firstExcludesFile h' root configs) := by
  induction configs with
  | nil => exact .refl _
  | cons config configs ih =>
    refine .bind (excludesFile_follows hr root config) (fun found => ?_)
    cases found with
    | none => exact ih
    | some file => exact .refl _

theorem globalIgnoreFile_follows (root : Text) :
    Follows (globalIgnoreFile h root) (globalIgnoreFile h' root) := by
  have hconfigs : configFiles h root = configFiles h' root :=
    hr.congr (F := fun h => configFiles h root) (fun _ => rfl)
  have hdirectory : configDirectory h = configDirectory h' :=
    hr.congr (F := configDirectory) (fun _ => rfl)
  rw [globalIgnoreFile, globalIgnoreFile, hconfigs, hdirectory]
  exact .bind (firstExcludesFile_follows hr root _) (fun _ => .refl _)

end GitConfig

/-! ## Sources -/

omit hr in
theorem Source.resolve_outline (h : Host) (root : Text) (s : Source) :
    s.resolve h.outline root = s.resolve h root := by
  rw [resolve, resolve]
  cases PatternFormat.ofSetting? s.format with
  | none => rfl
  | some format =>
    cases s.origin with
    | lines ls => rfl
    | file path required => simp only [Host.hasFile_outline]; rfl

theorem Source.rules_follows (root : Text) (s : Source) :
    Follows (s.rules h root) (s.rules h' root) := by
  have hresolve : s.resolve h root = s.resolve h' root :=
    hr.congr (F := fun h => s.resolve h root) (fun h => resolve_outline h root s)
  have hhomes : h.homes = h'.homes := hr.congr (F := Host.homes) (fun _ => rfl)
  rw [rules, rules, hresolve]
  refine .bind (.refl _) (fun r => .mapError ?_ _)
  rw [ResolvedSource.rules, ResolvedSource.rules, hhomes]
  refine .map ?_ _
  rw [ResolvedSource.lines, ResolvedSource.lines]
  cases r.origin with
  | lines ls => exact .refl _
  | file path required => exact hr.readOr path [] Text.lines

/-! ## Filters -/

theorem Hierarchy.create_follows (root : Text) (given : Option Text) (required : Bool) :
    Follows (create h root given required) (create h' root given required) := by
  have hfile : h.hasFile (Path.join (Path.slashed root) ignoreFileName) =
      h'.hasFile (Path.join (Path.slashed root) ignoreFileName) :=
    hr.congr (F := fun h => h.hasFile _) (fun _ => Host.hasFile_outline)
  rw [create, create, hfile]
  split
  · exact .of_error _ _
  · have hparts : ∀ file, Follows
        ((seedSources (Path.slashed root) file).mapM (·.rules h (Path.slashed root)))
        ((seedSources (Path.slashed root) file).mapM (·.rules h' (Path.slashed root))) :=
      fun file => .mapM (fun s => s.rules_follows hr _) _
    cases given with
    | none =>
      exact .bind (GitConfig.globalIgnoreFile_follows hr _) fun file =>
        .bind (hparts file) fun _ => .refl _
    | some file => exact .bind (.refl _) fun file => .bind (hparts file) fun _ => .refl _

theorem Policy.create_follows (plan : PolicyPlan) :
    Follows (create h plan) (create h' plan) := by
  have hlist : ∀ (allow : Bool) (s : Source),
      Follows (listOf h (Path.slashed plan.root) allow s)
        (listOf h' (Path.slashed plan.root) allow s) :=
    fun allow s => (s.rules_follows hr _).map _
  intro p hp
  obtain ⟨hierarchy, ignoring, including, further, hhierarchy, hmakes, rfl⟩ := exists_of_create hp
  refine create_eq_ok ?_ ⟨Follows.mapM (hlist false) _ _ hmakes.ignoring,
    Follows.mapM (hlist true) _ _ hmakes.including,
    Follows.mapM (fun s => hlist s.allow s) _ _ hmakes.further⟩
  split at hhierarchy
  · rename_i hfiles
    rw [if_pos hfiles]
    exact ((Hierarchy.create_follows hr _ _ _).map some) _ hhierarchy
  · rename_i hfiles
    rw [if_neg hfiles]
    exact hhierarchy

/-- **A filter that can be made can be made wherever as much is revealed, and is the same one.** -/
theorem Filter.create_follows (plan : FilterPlan) : Follows (create h plan) (create h' plan) := by
  have hcwd : h.cwd = h'.cwd := hr.congr (F := Host.cwd) (fun _ => rfl)
  have hhomes : h.homes = h'.homes := hr.congr (F := Host.homes) (fun _ => rfl)
  have hdirectory : ∀ path, h.hasDirectory path = h'.hasDirectory path := fun path =>
    hr.congr (F := fun h => h.hasDirectory path) (fun _ => Host.hasDirectory_outline)
  rw [create, create, hcwd, hhomes]
  refine .bind (.refl _) (fun config => .bind (.refl _) (fun resolver => ?_))
  rw [hdirectory]
  split
  · exact .of_error _ _
  · exact .bind (Policy.create_follows hr _) (fun _ => .refl _)

end

/-- **A filter that can be made where a file cannot be opened does not depend on what is in it.** -/
theorem Filter.create_of_sealed {h h' : Host} {l : Location} {plan : FilterPlan} {f : Filter}
    (ha : h.AlikeBut l h') (hf : create (h.sealed l) plan = .ok f) : create h' plan = .ok f :=
  create_follows ha.reveals plan f hf

end PathFilter
