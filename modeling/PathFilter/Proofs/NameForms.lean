import PathFilter.Proofs.Termination

/-! # Files given in full and by their names

The files that are found are given by their names relative to the root, or in full.  **This is all
that the setting changes**: two filters that differ in it only, used alike, load the same ignore
files, answer alike and find the same files, the one giving the names and the other the root
followed by the names (`Session.run_inFull`).

A directory is written both ways in its frame; they belong together in each frame of an iteration
(`Walk.Course.isBelow`), and so do the files that are visited from it (`Walk.visit_inFull`).
-/

namespace PathFilter

/-! ## The setting -/

/-- The settings with files given by their names, or in full. -/
def Config.giving (c : Config) (relative : Bool) : Config := { c with relative }

/-- The plan of a filter that gives files by their names, or in full. -/
def FilterPlan.giving (plan : FilterPlan) (relative : Bool) : FilterPlan :=
  { plan with options := { plan.options with relative } }

/-- The filter that gives files by their names, or in full. -/
def Filter.giving (f : Filter) (relative : Bool) : Filter :=
  { f with config := f.config.giving relative }

/-- The visit that gives a file in full where this one gives its name. -/
def Visit.inFull (root : Text) : Visit → Visit
  | .file name => .file (root ++ name)
  | .pass => .pass
  | .directory => .directory

/-- The stretch of an iteration that gives in full the files of which this one gives the names. -/
def Progress.inFull (root : Text) (q : Progress) : Progress :=
  { q with found := q.found.map (root ++ ·) }

/-- The same of an iteration that has been advanced. -/
def Advance.inFull (root : Text) (done : Advance) : Advance :=
  { done with found := done.found.map (root ++ ·) }

/-- The same of an iteration over the files of a filter. -/
def Iteration.inFull (root : Text) (i : Iteration) : Iteration :=
  { i with found := i.found.map (root ++ ·) }

/-- The session with a filter that gives in full the files of which this one gives the names. -/
def Session.inFull (s : Session) : Session :=
  ⟨s.filter.giving false, s.iterations.map (·.inFull s.filter.root), s.answers⟩

/-- A frame in which a directory is written in full as it is relative to a root. -/
def Frame.IsBelow (root : Text) (f : Frame) : Prop := f.directory = root ++ f.relative

/-! ## Iterations -/

namespace Walk
variable {h : Host} {c : Config} {root : Text} {p p' : Policy} {w : Walk} {t : Turn} {f g : Frame}
  {frames outer : List Frame} {n : Nat} {found names : List Text} {wanted : Option Nat}
  {directory relative : Text} {above : List Nat}

theorem isBelow_of_openDirectory (hdirectory : directory = root ++ relative)
    (hopen : openDirectory h c directory relative above p = .ok (some (g, p'))) :
    g.IsBelow root := by
  obtain ⟨inodes, names, -, -, rfl⟩ := exists_of_openDirectory hopen
  exact hdirectory

/-- What lies in a directory is written both ways behind what is written for it. -/
theorem append_of_isBelow (hf : f.IsBelow root) (t : Text) :
    f.directory ++ t = root ++ (f.relative ++ t) := by
  rw [hf, List.append_assoc]

/-- A turn leaves frames that are written both ways as they were. -/
theorem isBelow_turn (hw : ∀ frames, w = .inside frames → ∀ f ∈ frames, f.IsBelow root)
    (ht : Turns h c root p w t) :
    ∀ frames, t.walk = .inside frames → ∀ f ∈ frames, f.IsBelow root := by
  rintro frames hframes
  cases ht with
  | begin hinto =>
    rcases turnInto_eq_ok hinto with rfl | ⟨g, p', hopen, rfl⟩
    · cases hframes
      exact List.forall_mem_nil _
    · cases hframes
      exact List.forall_mem_singleton.mpr
        (isBelow_of_openDirectory (List.append_nil root).symm hopen)
  | leave _ =>
    cases hframes
    exact (List.forall_mem_cons.mp (hw _ rfl)).2
  | visit _ _ =>
    cases hframes
    obtain ⟨hf, houter⟩ := List.forall_mem_cons.mp (hw _ rfl)
    exact List.forall_mem_cons.mpr ⟨hf, houter⟩
  | @enter f g outer name rest p' _ _ hopen =>
    cases hframes
    obtain ⟨hf, houter⟩ := List.forall_mem_cons.mp (hw _ rfl)
    have hdirectory : f.directory ++ name ++ ['/'] = root ++ (f.relative ++ name ++ ['/']) := by
      rw [append_of_isBelow hf, List.append_assoc]
    exact List.forall_mem_cons.mpr
      ⟨isBelow_of_openDirectory hdirectory hopen, List.forall_mem_cons.mpr ⟨hf, houter⟩⟩

/-- **In all frames of an iteration the directory is written both ways.** -/
theorem Course.isBelow (hc : Course h c root n w found) :
    ∀ frames, w = .inside frames → ∀ f ∈ frames, f.IsBelow root := by
  induction hc with
  | start => exact nofun
  | turn _ hturn ih => exact isBelow_turn ih (turns_of_turn hturn)

/-- A file is visited both ways. -/
theorem visit_inFull (hf : f.IsBelow root) (name : Text) :
    visit h (c.giving false) p f name =
      (visit h (c.giving true) p f name).map (Visit.inFull root) := by
  have hkind : ∀ isDir, visitKind h (c.giving false) p f name isDir =
      (visitKind h (c.giving true) p f name isDir).map (Visit.inFull root) := by
    intro isDir
    rw [visitKind_eq_map, visitKind_eq_map]
    cases (if f.readsFirstLine && mayBeScript isDir name then h.firstLine (f.directory ++ name)
      else .ok none) with
    | error e => rfl
    | ok read =>
      refine congrArg Except.ok ?_
      dsimp only
      cases p.allowsAlone ⟨f.directory ++ name, isDir, read⟩ with
      | false => rfl
      | true =>
        cases isDir with
        | true => rfl
        | false => exact congrArg Visit.file (append_of_isBelow hf name)
  have hlinks : ∀ relative, (c.giving relative).followLinks = c.followLinks := fun _ => rfl
  rw [visit, visit, hlinks, hlinks]
  cases orAbsent (h.isDirectory c.followLinks (f.directory ++ name)) with
  | error e => rfl
  | ok found =>
    cases found with
    | none => rfl
    | some isDir => exact hkind isDir

theorem andThen_inFull {q : Progress} {next next' : Policy → Option Nat → Progress}
    (hnext : ∀ p w, next' p w = (next p w).inFull root) :
    andThen (q.inFull root) outer next' = (andThen q outer next).inFull root := by
  have hhalt : (q.inFull root).halt = q.halt := rfl
  rw [andThen, andThen, hhalt]
  cases q.halt with
  | finished =>
    simp only [hnext]
    simp [Progress.inFull]
  | failed e => rfl
  | paused frames => rfl

/-- **Scanning a directory finds the same files both ways**, if entering one below does. -/
theorem scan_inFull {enter enter' : Text → Text → List Nat → Policy → Option Nat → Progress}
    (henter : ∀ relative above p wanted, enter' (root ++ relative) relative above p wanted =
      (enter (root ++ relative) relative above p wanted).inFull root)
    (hf : f.IsBelow root) (p : Policy) (wanted : Option Nat) :
    scan h (c.giving false) enter' f names p wanted =
      (scan h (c.giving true) enter f names p wanted).inFull root := by
  induction names generalizing p wanted with
  | nil => rfl
  | cons name names ih =>
    rw [scan, scan, visit_inFull hf]
    split
    · rfl
    cases visit h (c.giving true) p f name with
    | error e => rfl
    | ok v =>
      cases v with
      | pass => exact ih p wanted
      | file path => exact andThen_inFull (q := ⟨[path], p, wanted.map (· - 1), .finished⟩) ih
      | directory =>
        have hbelow := henter (f.relative ++ name ++ ['/']) f.inodes p wanted
        rw [← List.append_assoc, ← append_of_isBelow hf] at hbelow
        show andThen (enter' _ _ _ _ _) _ _ = _
        rw [hbelow]
        exact andThen_inFull ih

/-- **Entering a directory finds the same files both ways.** -/
theorem enter_inFull (room : Nat) (relative : Text) (above : List Nat) (p : Policy)
    (wanted : Option Nat) :
    enter h (c.giving false) room (root ++ relative) relative above p wanted =
      (enter h (c.giving true) room (root ++ relative) relative above p wanted).inFull root := by
  induction room generalizing relative above p wanted with
  | zero => rfl
  | succ room ih =>
    have hsame : openDirectory h (c.giving false) (root ++ relative) relative above p =
        openDirectory h (c.giving true) (root ++ relative) relative above p := rfl
    rw [enter, enter, hsame]
    cases hopen : openDirectory h (c.giving true) (root ++ relative) relative above p with
    | error e => rfl
    | ok opened =>
      rcases opened with _ | ⟨f, p'⟩
      · rfl
      · exact scan_inFull ih (isBelow_of_openDirectory rfl hopen) p' wanted

/-- **An iteration finds the same files both ways**, wherever it goes on from. -/
theorem advance_inFull (hw : ∀ frames, w = .inside frames → ∀ f ∈ frames, f.IsBelow root)
    (p : Policy) (wanted : Option Nat) : w.advance h (c.giving false) root p wanted =
      (w.advance h (c.giving true) root p wanted).inFull root := by
  cases w with
  | unstarted =>
    have henter : enter h (c.giving false) (roomFor h) (root ++ []) [] [] p wanted =
        (enter h (c.giving true) (roomFor h) (root ++ []) [] [] p wanted).inFull root :=
      enter_inFull (roomFor h) [] [] p wanted
    rwa [List.append_nil] at henter
  | inside frames =>
    have hframes := hw frames rfl
    clear hw
    rw [advance, advance]
    induction frames generalizing p wanted with
    | nil => rfl
    | cons f outer ih =>
      obtain ⟨hf, houter⟩ := List.forall_mem_cons.mp hframes
      rw [resume, resume, scan_inFull (enter_inFull (roomFor h)) hf]
      exact andThen_inFull fun p wanted => ih p wanted houter

end Walk

/-! ## Filters -/

theorem Options.check_giving {o : Options} {c : Config} (hc : o.check = .ok c) (relative : Bool) :
    { o with relative }.check = .ok (c.giving relative) := by
  rw [check] at hc ⊢
  dsimp only at hc ⊢
  split at hc
  · cases hc
  · cases hc
  · cases hc
    rfl

namespace Filter
variable {h : Host} {plan : FilterPlan} {f : Filter} {w : Walk}

/-- A plan makes the same filter, but for the form in which files are given. -/
theorem create_giving (hf : create h plan = .ok f) (relative : Bool) :
    create h (plan.giving relative) = .ok (f.giving relative) := by
  obtain ⟨config, hconfig, hf⟩ := bind_eq_ok_iff.mp hf
  obtain ⟨resolver, hresolver, hf⟩ := bind_eq_ok_iff.mp hf
  have hcheck := Options.check_giving (mapError_eq_ok_iff.mp hconfig) relative
  refine bind_eq_ok_iff.mpr ⟨_, mapError_eq_ok_iff.mpr hcheck,
    bind_eq_ok_iff.mpr ⟨resolver, hresolver, ?_⟩⟩
  split at hf
  · cases hf
  · rename_i hdirectory
    obtain ⟨policy, hpolicy, hf⟩ := bind_eq_ok_iff.mp hf
    cases hf
    rw [if_neg hdirectory]
    exact bind_eq_ok_iff.mpr ⟨policy, hpolicy, rfl⟩

/-- A question is answered alike. -/
theorem ask_giving (relative : Bool) (q : Query) : (f.giving relative).ask h q =
    ((f.ask h q).1.giving relative, (f.ask h q).2) := by
  have hresolver : (f.giving relative).resolver = f.resolver := rfl
  rw [ask, ask, hresolver]
  cases f.resolver.relative? h.homes q.path with
  | error e => rfl
  | ok found =>
    cases found with
    | none => rfl
    | some name =>
      have hbelow : (f.giving relative).decideBelow h name q =
          ((f.decideBelow h name q).1.giving relative, (f.decideBelow h name q).2) := by
        have hprobe : (f.giving relative).probe h ((f.giving relative).root ++ name) q =
            f.probe h (f.root ++ name) q := rfl
        rw [decideBelow, decideBelow, hprobe]
        cases f.probe h (f.root ++ name) q with
        | error e => rfl
        | ok probed =>
          dsimp only
          split
          · rfl
          · show (if (!probed.2.getD (h.present (f.root ++ name))) = true then _ else _) = _
            cases !probed.2.getD (h.present (f.root ++ name)) with
            | true => rfl
            | false => rfl
      simp only [hbelow]

theorem giving_eq_self (hrelative : f.config.relative = true) : f.giving true = f := by
  rw [giving, Config.giving, ← hrelative]

/-- **An iteration gives the same files both ways**, and leaves as much loaded. -/
theorem advance_inFull (hrelative : f.config.relative = true)
    (hw : ∀ frames, w = .inside frames → ∀ g ∈ frames, g.IsBelow f.root) (wanted : Option Nat) :
    (f.giving false).advance h wanted w =
      ((f.advance h wanted w).1.giving false, (f.advance h wanted w).2.inFull f.root) := by
  have hwalk : w.advance h (f.giving false).config (f.giving false).root (f.giving false).policy
      wanted = (w.advance h f.config f.root f.policy wanted).inFull f.root := by
    have hadvance := Walk.advance_inFull (h := h) (c := f.config) hw f.policy wanted
    have hconfig : f.config.giving true = f.config :=
      congrArg Filter.config (giving_eq_self hrelative)
    rwa [hconfig] at hadvance
  rw [advance, advance, hwalk]
  split
  · rfl
  · dsimp only [Progress.inFull]
    cases (w.advance h f.config f.root f.policy wanted).halt with
    | finished => rfl
    | failed e => rfl
    | paused frames => rfl

/-- All files are the same ones both ways. -/
theorem enumerate_inFull (hrelative : f.config.relative = true) :
    ((f.giving false).enumerate h).2 = (f.enumerate h).2.inFull f.root :=
  congrArg Prod.snd (advance_inFull (w := .unstarted) hrelative nofun none)

end Filter

/-! ## Filters in use -/

namespace Iteration
variable {h : Host} {c : Config} {root : Text} {i : Iteration}

theorem inFull_after (done : Advance) : (i.inFull root).after (done.inFull root) =
    (i.after done).inFull root := by
  rw [after, after, inFull, inFull, Advance.inFull, List.map_append]

/-- An iteration that is on a course has frames in which the directory is written both ways. -/
theorem OnCourse.isBelow (hi : i.OnCourse h c root) :
    ∀ frames, i.walk = .inside frames → ∀ f ∈ frames, f.IsBelow root := by
  intro frames hframes
  cases herror : i.error with
  | none =>
    obtain ⟨n, hc⟩ := hi.going herror
    exact hc.isBelow frames hframes
  | some e =>
    cases hframes.symm.trans (hi.failed e herror).1
    exact List.forall_mem_nil _

end Iteration

namespace Session
variable {h : Host} {s : Session}

/-- An action does the same both ways. -/
theorem step_inFull (hrelative : s.filter.config.relative = true)
    (hs : ∀ i ∈ s.iterations, i.OnCourse h s.filter.config s.filter.root) (a : Action) :
    s.inFull.step h a = (s.step h a).inFull := by
  cases a with
  | ask q =>
    rw [step, step, inFull, Filter.ask_giving, inFull]
    show Session.mk _ (s.iterations.map (·.inFull s.filter.root)) _ =
      Session.mk _ (s.iterations.map (·.inFull (s.filter.ask h q).1.root)) _
    rw [Filter.ask_fst_eq]
    rfl
  | start =>
    rw [step, step, inFull, inFull, List.map_append]
    rfl
  | advance n wanted =>
    have hpick : s.inFull.iterations[n]? = s.iterations[n]?.map (·.inFull s.filter.root) :=
      List.getElem?_map
    rw [step, step, hpick]
    cases hn : s.iterations[n]? with
    | none => rfl
    | some i =>
      have hi := hs i (List.mem_of_getElem? hn)
      have hadvance := Filter.advance_inFull (h := h) hrelative hi.isBelow wanted
      have hroot : (s.filter.advance h wanted i.walk).1.root = s.filter.root := by
        rw [Filter.advance_fst_eq]
        rfl
      rw [Option.map_some]
      show Session.mk ((s.filter.giving false).advance h wanted i.walk).1
        ((s.iterations.map (·.inFull s.filter.root)).set n
          ((i.inFull s.filter.root).after ((s.filter.giving false).advance h wanted i.walk).2)) _ =
        Session.mk ((s.filter.advance h wanted i.walk).1.giving false)
          ((s.iterations.set n (i.after (s.filter.advance h wanted i.walk).2)).map
            (·.inFull (s.filter.advance h wanted i.walk).1.root)) _
      rw [hadvance, Iteration.inFull_after, hroot, List.map_set]
      rfl

/-- **What is done with a filter has the same effect both ways.** -/
theorem run_inFull (hfs : h.files.Proper) (hb : s.filter.resolver.base.IsNormal)
    (hrelative : s.filter.config.relative = true)
    (hs : ∀ i ∈ s.iterations, i.OnCourse h s.filter.config s.filter.root) (actions : List Action) :
    s.inFull.run h actions = (s.run h actions).inFull := by
  induction actions generalizing s with
  | nil => rfl
  | cons a actions ih =>
    have hstep := onCourse_step hfs hb hs a
    have hfilter := s.step_filter_eq (h := h) a
    rw [run_cons, run_cons, step_inFull hrelative hs]
    refine ih ?_ ?_ ?_
    · rwa [hfilter]
    · rwa [hfilter]
    · rwa [hfilter]

end Session
end PathFilter
