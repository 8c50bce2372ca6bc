import PathFilter.Proofs.Listing

/-! # Errors of the file system that are not seen

Where the errors of a file system say no more than that nothing usable is at a path, none of them is
passed on (`FileSystem.Mild`).  They are met in four places, in probing a path, in listing a
directory, in opening a file, and on the way to any of these, and each time the path is taken for
one that leads to nothing.

So a filter is created, or not, for other reasons (`Filter.create_hidesErrors`), each question is
answered (`Filter.ask_hidesErrors`), and an iteration goes on to its end (`Filter.advance_error`).
-/

namespace PathFilter

/-- A computation does not fail with an error of the file system. -/
def HidesErrors {α : Type} (x : Except Failure α) : Prop := ∀ e, x ≠ .error (.access e)

namespace HidesErrors
variable {α β ε : Type} {x : Except Failure α}

theorem ok (a : α) : HidesErrors (.ok a) := nofun

theorem bind (hx : HidesErrors x) {f : α → Except Failure β} (hf : ∀ a, HidesErrors (f a)) :
    HidesErrors (x >>= f) := by
  intro e h
  rcases bind_eq_error_iff.mp h with h | ⟨a, -, h⟩
  · exact hx e h
  · exact hf a e h

theorem map (hx : HidesErrors x) (f : α → β) : HidesErrors (x.map f) := by
  cases x with
  | ok a => exact ok (f a)
  | error failure =>
    rintro e ⟨⟩
    exact hx e rfl

/-- An error of another kind is none of the file system. -/
theorem mapError {y : Except ε α} {kind : ε → Failure} (hkind : ∀ a e, kind a ≠ .access e) :
    HidesErrors (y.mapError kind) := by
  cases y with
  | ok a => exact ok a
  | error a => exact fun e h => hkind a e (Except.error.inj h)

theorem mapM {f : α → Except Failure β} (hf : ∀ a, HidesErrors (f a)) (as : List α) :
    HidesErrors (as.mapM f) := by
  induction as with
  | nil => exact ok []
  | cons a as ih =>
    rw [List.mapM_cons]
    exact bind (hf a) fun b => bind ih fun bs => ok (b :: bs)

theorem foldlM {f : β → α → Except Failure β} (hf : ∀ b a, HidesErrors (f b a)) (b : β)
    (as : List α) : HidesErrors (as.foldlM f b) := by
  induction as generalizing b with
  | nil => exact ok b
  | cons a as ih =>
    rw [List.foldlM_cons]
    exact bind (hf b a) fun b => ih b

end HidesErrors

section
variable {h : Host} (hm : h.files.Mild)
include hm

theorem hidesErrors_readLines (file : Text) :
    HidesErrors ((h.readLines file).mapError Failure.access) := by
  obtain ⟨lines, hlines⟩ := Host.exists_readLines_eq hm file
  rw [hlines]
  exact .ok lines

/-! ## Creation -/

namespace GitConfig

theorem Settings.ofFile_hidesErrors (room : Nat) (file : Text) :
    HidesErrors (Settings.ofFile h room file) := by
  induction room generalizing file with
  | zero => exact nofun
  | succ room ih =>
    rw [Settings.ofFile]
    refine .bind (hidesErrors_readLines hm file) fun lines => .bind (.foldlM (fun s a => ?_) _ _) ?_
    · rw [Settings.carryOut]
      split
      · exact (ih _).map _
      · exact .ok _
    · intro s
      split
      · exact nofun
      · exact .ok s

theorem globalIgnoreFile_hidesErrors (root : Text) : HidesErrors (globalIgnoreFile h root) := by
  have hfirst : ∀ configs, HidesErrors (firstExcludesFile h root configs) := by
    intro configs
    induction configs with
    | nil => exact .ok none
    | cons config configs ih =>
      refine .bind (.bind (Settings.ofFile_hidesErrors hm _ _) fun s => .ok _) fun found => ?_
      cases found with
      | none => exact ih
      | some file => exact .ok (some file)
  exact .bind (hfirst _) fun file => .ok _

end GitConfig

theorem Source.rules_hidesErrors (root : Text) (s : Source) : HidesErrors (s.rules h root) := by
  refine .bind (.mapError nofun) fun r => ?_
  obtain ⟨lines, hlines⟩ : ∃ lines, r.lines h = .ok lines := by
    rw [ResolvedSource.lines]
    split
    · exact ⟨_, rfl⟩
    · exact Host.exists_readLines_eq hm _
  rw [ResolvedSource.rules, hlines]
  exact .ok _

theorem Hierarchy.create_hidesErrors (root : Text) (given : Option Text) (required : Bool) :
    HidesErrors (create h root given required) := by
  rw [create]
  split
  · exact nofun
  · have hparts : ∀ file, HidesErrors
        ((seedSources (Path.slashed root) file).mapM (·.rules h (Path.slashed root))) :=
      fun file => .mapM (fun s => s.rules_hidesErrors hm _) _
    cases given with
    | none =>
      exact .bind (GitConfig.globalIgnoreFile_hidesErrors hm _) fun file =>
        .bind (hparts file) fun _ => .ok _
    | some file => exact .bind (.ok file) fun file => .bind (hparts file) fun _ => .ok _

theorem Policy.create_hidesErrors (plan : PolicyPlan) : HidesErrors (create h plan) := by
  have hlist : ∀ allow s, HidesErrors (listOf h (Path.slashed plan.root) allow s) :=
    fun allow s => (s.rules_hidesErrors hm _).map _
  have hlists : ∀ make : List RuleList → List RuleList → List RuleList → Policy, HidesErrors (do
      let ignoring ← plan.ignoring.mapM (listOf h (Path.slashed plan.root) false)
      let including ← plan.including.mapM (listOf h (Path.slashed plan.root) true)
      let further ← plan.further.mapM fun s => listOf h (Path.slashed plan.root) s.allow s
      return make ignoring including further) := fun make =>
    .bind (.mapM (hlist false) _) fun _ => .bind (.mapM (hlist true) _) fun _ =>
      .bind (.mapM (fun s => hlist s.allow s) _) fun _ => .ok _
  rw [create]
  split
  · exact .bind ((Hierarchy.create_hidesErrors hm _ _ _).map some) fun _ => hlists _
  · exact hlists _

/-- **No error of the file system keeps a filter from being created.** -/
theorem Filter.create_hidesErrors (plan : FilterPlan) : HidesErrors (create h plan) := by
  refine .bind (.mapError nofun) fun config => .bind (.mapError nofun) fun resolver => ?_
  split
  · exact nofun
  · exact .bind (Policy.create_hidesErrors hm _) fun policy => .ok _

/-! ## Questions -/

theorem Hierarchy.exists_load_eq (dir : Text) (present : Option Bool) (g : Hierarchy) :
    ∃ g', g.load h dir present = .ok g' := by
  rw [load]
  split
  · exact ⟨g, rfl⟩
  split
  · exact ⟨_, rfl⟩
  · obtain ⟨lines, hlines⟩ := Host.exists_readLines_eq hm (g.ignoreFile h dir)
    rw [rulesIn, hlines]
    exact ⟨_, rfl⟩

theorem Hierarchy.loadAll_snd (dirs : List Text) (g : Hierarchy) :
    (g.loadAll h dirs).2 = .ok () := by
  induction dirs generalizing g with
  | nil => rfl
  | cons dir dirs ih =>
    obtain ⟨g', hg'⟩ := g.exists_load_eq hm dir none
    rw [loadAll, hg']
    exact ih g'

theorem Policy.loadAbove_snd (path : Text) (p : Policy) : (p.loadAbove h path).2 = .ok () := by
  rw [loadAbove]
  split
  · rfl
  · exact Hierarchy.loadAll_snd hm _ _

theorem Policy.exists_load_eq (dir : Text) (present : Option Bool) (p : Policy) :
    ∃ p', p.load h dir present = .ok p' := by
  rw [load]
  split
  · exact ⟨p, rfl⟩
  · rename_i g _
    obtain ⟨g', hg'⟩ := g.exists_load_eq hm dir present
    rw [hg']
    exact ⟨_, rfl⟩

namespace Filter
variable {f : Filter} {q : Query}

theorem exists_decideAt_eq (relative : Text) (isDir : Bool) :
    ∃ answer, (f.decideAt h relative isDir q).2 = .ok answer := by
  obtain ⟨line, hline⟩ : ∃ line, Filter.firstLine? h
      { f with policy := (f.policy.loadAbove h relative).1 } relative isDir q = .ok line := by
    rw [firstLine?]
    split
    · exact ⟨_, rfl⟩
    split
    · exact Host.exists_firstLine_eq hm _
    · exact ⟨none, rfl⟩
  refine ⟨(f.policy.loadAbove h relative).1.allows relative isDir line, ?_⟩
  rw [decideAt]
  simp only [f.policy.loadAbove_snd hm relative, hline]
  rfl

theorem exists_decideBelow_eq (relative : Text) :
    ∃ answer, (f.decideBelow h relative q).2 = .ok answer := by
  obtain ⟨⟨isDir, present⟩, hprobe⟩ : ∃ found, f.probe h (f.root ++ relative) q = .ok found := by
    rw [probe]
    split
    · exact ⟨_, rfl⟩
    split
    · exact ⟨_, rfl⟩
    · rename_i e he
      exact ⟨_, if_pos (Host.meansAbsent_of_isDirectory hm he)⟩
  rw [decideBelow]
  simp only [hprobe]
  split
  · exact ⟨false, rfl⟩
  split
  · exact ⟨false, rfl⟩
  · exact exists_decideAt_eq hm relative isDir

/-- **No error of the file system keeps a question from being answered.** -/
theorem ask_hidesErrors (f : Filter) (q : Query) : HidesErrors (f.ask h q).2 := by
  rw [ask]
  split
  · exact nofun
  · exact .ok false
  · rename_i relative _
    obtain ⟨answer, hanswer⟩ := exists_decideBelow_eq (f := f) (q := q) hm relative
    simp only [hanswer]
    exact .ok answer

end Filter

/-! ## Iterations -/

/-- An iteration has not stopped with an error. -/
def Progress.Undisturbed (p : Progress) : Prop := ∀ e, p.halt ≠ .failed e

namespace Walk
variable {c : Config}

omit hm in
theorem undisturbed_andThen {p : Progress} (hp : p.Undisturbed) (outer : List Frame)
    {next : Policy → Option Nat → Progress} (hnext : ∀ p w, (next p w).Undisturbed) :
    (andThen p outer next).Undisturbed := by
  rw [andThen]
  cases hhalt : p.halt with
  | finished => exact hnext _ _
  | failed e => exact absurd hhalt (hp e)
  | paused frames => exact nofun

theorem exists_openDirectory_eq (directory relative : Text) (above : List Nat) (p : Policy) :
    ∃ opened, openDirectory h c directory relative above p = .ok opened := by
  rw [openDirectory]
  cases hcontents : contents h c directory above with
  | error e =>
    rw [orAbsent, if_pos (meansAbsent_of_contents hm hcontents)]
    exact ⟨none, rfl⟩
  | ok met =>
    cases met with
    | none => exact ⟨none, rfl⟩
    | some met =>
      obtain ⟨inodes, names⟩ := met
      obtain ⟨p', hp'⟩ := p.exists_load_eq hm relative (some (names.contains ignoreFileName))
      refine ⟨some (⟨directory, relative, names, inodes, p'.readsFirstLine⟩, p'), ?_⟩
      show (do let policy ← p.load h relative (some (names.contains ignoreFileName)); _) = _
      rw [hp']
      rfl

theorem exists_visit_eq (p : Policy) (f : Frame) (name : Text) :
    ∃ found, visit h c p f name = .ok found := by
  cases hdir : h.isDirectory c.followLinks (f.directory ++ name) with
  | error e =>
    rw [visit, hdir, orAbsent, if_pos (Host.meansAbsent_of_isDirectory hm hdir)]
    exact ⟨.pass, rfl⟩
  | ok isDir =>
    rw [visit_of_isDirectory hdir, visitKind]
    have hdecide : ∀ line, ∃ found : Visit, (show Except Errno Visit from
        if !p.allowsAlone ⟨f.directory ++ name, isDir, line⟩ then return .pass
        else if isDir then return .directory
        else return .file (if c.relative then f.relative ++ name else f.directory ++ name)) =
          .ok found := by
      intro line
      split
      · exact ⟨_, rfl⟩
      split <;> exact ⟨_, rfl⟩
    simp only
    split
    · obtain ⟨line, hline⟩ := Host.exists_firstLine_eq hm (f.directory ++ name)
      rw [hline]
      exact hdecide line
    · exact hdecide none

theorem undisturbed_scan {enter : Text → Text → List Nat → Policy → Option Nat → Progress}
    (henter : ∀ directory relative above p w, (enter directory relative above p w).Undisturbed)
    (f : Frame) (names : List Text) (p : Policy) (wanted : Option Nat) :
    (scan h c enter f names p wanted).Undisturbed := by
  induction names generalizing p wanted with
  | nil => exact nofun
  | cons name names ih =>
    rw [scan]
    split
    · exact nofun
    obtain ⟨found, hfound⟩ := exists_visit_eq (c := c) hm p f name
    rw [hfound]
    cases found with
    | pass => exact ih p wanted
    | file path =>
      refine undisturbed_andThen ?_ [] ih
      exact nofun
    | directory => exact undisturbed_andThen (henter _ _ _ _ _) _ ih

theorem undisturbed_enter (room : Nat) (directory relative : Text) (above : List Nat) (p : Policy)
    (wanted : Option Nat) : (enter h c room directory relative above p wanted).Undisturbed := by
  induction room generalizing directory relative above p wanted with
  | zero => exact nofun
  | succ room ih =>
    obtain ⟨opened, hopen⟩ := exists_openDirectory_eq (c := c) hm directory relative above p
    rw [enter, hopen]
    cases opened with
    | none => exact nofun
    | some opened => exact undisturbed_scan hm ih _ _ _ _

/-- **No error of the file system stops an iteration**, wherever it goes on from. -/
theorem undisturbed_advance (root : Text) (p : Policy) (wanted : Option Nat) (w : Walk) :
    (w.advance h c root p wanted).Undisturbed := by
  cases w with
  | unstarted => exact undisturbed_enter hm _ _ _ _ _ _
  | inside frames =>
    rw [advance]
    induction frames generalizing p wanted with
    | nil => exact nofun
    | cons f frames ih =>
      exact undisturbed_andThen (undisturbed_scan hm (undisturbed_enter hm _) _ _ _ _) _ ih

end Walk

theorem Filter.advance_error (f : Filter) (wanted : Option Nat) (w : Walk) :
    (f.advance h wanted w).2.error = none := by
  rw [advance]
  split
  · rfl
  · simp only
    split
    · rfl
    · rename_i e hhalt
      exact absurd hhalt (Walk.undisturbed_advance hm f.root f.policy wanted w e)
    · rfl

end
end PathFilter
