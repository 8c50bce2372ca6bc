import PathFilter.Proofs.History
import PathFilter.Proofs.Turns

/-! # Iterations end

An iteration is advanced by a recursion that is given room for as many directories within each other
as there are.  Taken turn by turn it has no such bound, and yet never takes more than a certain
number of turns.  **Both are the same**: to advance an iteration is to take some of its turns, each
with what the one before has left (`Stretch`), until all files that are asked for have been found,
nothing is left to do, or a turn fails (`Performs`).  In particular the room never runs out.

* This holds of a directory that is scanned (`scan_performs`) and of one that is entered
  (`enter_performs`), and so of an iteration that goes on (`resume_performs`) and of any that is
  advanced (`advance_performs`).
* So each iteration of a filter in use is on a course, whatever else is done with the filter
  (`Session.onCourse_run`).
* **It has ended when more files have been asked for than a course has turns**, and it has been
  inside of different directories all the time (`Filter.iterations_end`).
-/

namespace PathFilter
namespace Walk
open PathFilter.Path FileSystem

section
variable (h : Host) (c : Config) (root : Text)

/-- Turns of an iteration in a row, each with the policy that the one before has left. -/
inductive Stretch : Policy → Walk → List Text → Policy → Walk → Prop where
  | refl (p : Policy) (w : Walk) : Stretch p w [] p w
  | turn {p p' : Policy} {w w' : Walk} {t : Turn} {found : List Text} :
      turn h c root p w = .ok (some t) → Stretch t.policy t.walk found p' w' →
        Stretch p w (t.found.toList ++ found) p' w'

/-- What has been done is a stretch of turns. Where it has stopped because nothing was left to do,
the iteration stands within `outer`; where as many files as were wanted have been found, the
iteration stands within frames that are inside of `outer`; and where it has failed, a turn fails. -/
def Performs (p : Policy) (w : Walk) (outer : List Frame) (wanted : Option Nat) (q : Progress) :
    Prop :=
  match q.halt with
  | .finished => Stretch h c root p w q.found q.policy (.inside outer) ∧
      wanted = q.wanted.map (q.found.length + ·)
  | .failed e => ∃ w', Stretch h c root p w q.found q.policy w' ∧
      turn h c root q.policy w' = .error e
  | .paused frames => Stretch h c root p w q.found q.policy (.inside (frames ++ outer)) ∧
      wanted = some q.found.length

end

variable {h : Host} {c : Config} {b : Pathname} {root : Text} {p p' p'' : Policy}
  {w w' w'' : Walk} {t : Turn} {ds : List Text} {name : Text} {f g : Frame}
  {mid outer frames : List Frame} {wanted : Option Nat} {q : Progress} {found found' : List Text}
  {n : Nat}

theorem Stretch.trans (h₁ : Stretch h c root p w found p' w')
    (h₂ : Stretch h c root p' w' found' p'' w'') :
    Stretch h c root p w (found ++ found') p'' w'' := by
  induction h₁ with
  | refl _ _ => exact h₂
  | turn hturn _ ih =>
    rw [List.append_assoc]
    exact .turn hturn (ih h₂)

/-- A course goes on through a stretch of turns. -/
theorem Course.stretch (hc : Course h c root n w found) (hs : Stretch h c root p w found' p' w') :
    ∃ m, Course h c root m w' (found ++ found') := by
  induction hs generalizing n found with
  | refl _ _ => exact ⟨n, by rwa [List.append_nil]⟩
  | turn hturn _ ih =>
    rw [← List.append_assoc]
    exact ih (hc.turn hturn)

/-! ## Stretches that are performed -/

/-- Nothing is done where nothing is left to do. -/
theorem performs_finished : Performs h c root p (.inside outer) outer wanted
    ⟨[], p, wanted, .finished⟩ :=
  ⟨.refl _ _, by simp⟩

/-- A turn that fails ends what is done. -/
theorem performs_failed {e : Errno} (hturn : turn h c root p w = .error e) :
    Performs h c root p w outer wanted ⟨[], p, wanted, .failed e⟩ :=
  ⟨w, .refl _ _, hturn⟩

/-- What is done after a stretch of turns is done with it. -/
theorem Performs.prepend {wanted' : Option Nat} (hq : Performs h c root p' w' outer wanted' q)
    (hs : Stretch h c root p w found p' w') (hwanted : wanted = wanted'.map (found.length + ·)) :
    Performs h c root p w outer wanted { q with found := found ++ q.found } := by
  rw [Performs] at hq ⊢
  simp only
  cases hhalt : q.halt with
  | finished =>
    rw [hhalt] at hq
    obtain ⟨hs', rfl⟩ := hq
    refine ⟨hs.trans hs', ?_⟩
    rw [hwanted, Option.map_map, List.length_append]
    exact congrArg (q.wanted.map ·) (funext fun k => (Nat.add_assoc _ _ k).symm)
  | failed e =>
    rw [hhalt] at hq
    obtain ⟨w₁, hs', hfail⟩ := hq
    exact ⟨w₁, hs.trans hs', hfail⟩
  | paused frames =>
    rw [hhalt] at hq
    obtain ⟨hs', rfl⟩ := hq
    refine ⟨hs.trans hs', ?_⟩
    rw [hwanted, List.length_append]
    rfl

theorem Stretch.of_turn (hturn : Walk.turn h c root p w = .ok (some t)) :
    Stretch h c root p w t.found.toList t.policy t.walk := by
  have hs := Stretch.turn hturn (.refl _ _)
  rwa [List.append_nil] at hs

/-- What is done after a turn that finds nothing is done with it. -/
theorem Performs.turn (hturn : Walk.turn h c root p w = .ok (some ⟨none, p', w'⟩))
    (hq : Performs h c root p' w' outer wanted q) : Performs h c root p w outer wanted q :=
  hq.prepend (.of_turn hturn) (by simp)

/-- **What is done in a row is a stretch of turns**, if each part of it is. -/
theorem Performs.andThen {next : Policy → Option Nat → Progress}
    (hq : Performs h c root p w (mid ++ outer) wanted q)
    (hnext : ∀ p' wanted', Performs h c root p' (.inside (mid ++ outer)) outer wanted'
      (next p' wanted')) : Performs h c root p w outer wanted (andThen q mid next) := by
  rw [Walk.andThen]
  rw [Performs] at hq
  cases hhalt : q.halt with
  | finished =>
    rw [hhalt] at hq
    exact (hnext q.policy q.wanted).prepend hq.1 hq.2
  | failed e =>
    rw [hhalt] at hq
    simp only
    rw [Performs, hhalt]
    exact hq
  | paused frames =>
    rw [hhalt] at hq
    simp only [← List.append_assoc] at hq
    exact hq

/-! ## Directories -/

/-- **Scanning a directory is a stretch of turns**, if entering one below is. -/
theorem scan_performs {enter : Text → Text → List Nat → Policy → Option Nat → Progress}
    {names : List Text}
    (henter : ∀ name ∈ names, h.isDirectory c.followLinks (f.directory ++ name) = .ok true →
      ∀ {p w outer} wanted, Walk.turn h c root p w =
        (turnInto h c p (f.directory ++ name ++ ['/']) (f.relative ++ name ++ ['/']) f.inodes
          outer).map some →
        Performs h c root p w outer wanted
          (enter (f.directory ++ name ++ ['/']) (f.relative ++ name ++ ['/']) f.inodes p wanted)) :
    Performs h c root p (.inside ({ f with pending := names } :: outer)) outer wanted
      (scan h c enter f names p wanted) := by
  induction names generalizing p wanted with
  | nil => exact performs_finished.turn rfl
  | cons name names ih =>
    have hrest : ∀ p' wanted', Performs h c root p' (.inside ({ f with pending := names } :: outer))
        outer wanted' (scan h c enter f names p' wanted') :=
      fun p' wanted' => ih fun n hn => henter n (List.mem_cons_of_mem name hn)
    have hturn : Walk.turn h c root p (.inside ({ f with pending := name :: names } :: outer)) =
        visit h c p f name >>= fun v =>
          (turnAt h c p f name ({ f with pending := names } :: outer) v).map some := rfl
    rw [scan]
    split
    · rename_i hzero
      exact ⟨.refl _ _, hzero⟩
    rename_i hzero
    cases hv : visit h c p f name with
    | error e =>
      rw [hv] at hturn
      exact performs_failed hturn
    | ok v =>
      rw [hv] at hturn
      cases v with
      | pass => exact (hrest p wanted).turn hturn
      | file path =>
        refine (hrest p (wanted.map (· - 1))).prepend (.of_turn hturn) ?_
        cases wanted with
        | none => rfl
        | some k =>
          have hpos : k ≠ 0 := fun hk => hzero (congrArg some hk)
          exact congrArg some (Nat.add_sub_of_le (Nat.one_le_iff_ne_zero.mpr hpos)).symm
      | directory =>
        have hdir := isDirectory_of_visit hv
        exact Performs.andThen (henter name List.mem_cons_self hdir wanted hturn) hrest

/-- Scanning the directory of a frame is a stretch of turns, if entering one below is, with room for
one directory less. -/
theorem scan_performs_of_placed {room : Nat}
    (henter : ∀ {ds above seen relative p w outer wanted}, Trail h c b ds above seen →
      h.files.directoryCount < ds.length + room →
      Walk.turn h c root p w = (turnInto h c p (pathOf b ds) relative above outer).map some →
        Performs h c root p w outer wanted (enter h c room (pathOf b ds) relative above p wanted))
    (hf : Placed h c b ds f) (hroom : h.files.directoryCount ≤ ds.length + room) :
    Performs h c root p (.inside (f :: outer)) outer wanted
      (scan h c (enter h c room) f f.pending p wanted) := by
  refine scan_performs fun name hname hdir p w outer wanted hturn => ?_
  rw [hf.directory] at hdir hturn ⊢
  obtain ⟨seen, ht⟩ := hf.opened.entry (hf.proper name hname) hdir
  rw [← pathOf_concat] at hturn ⊢
  refine henter ht ?_ hturn
  rw [List.length_append, List.length_singleton]
  omega

/-- **Entering a directory is a stretch of turns**: the room for the directories in it does not run
out. -/
theorem enter_performs (hfs : h.files.Proper) (hb : b.IsNormal) {room : Nat} {above : List Nat}
    {seen : List (Location × Node)} {relative : Text} (ht : Trail h c b ds above seen)
    (hroom : h.files.directoryCount < ds.length + room)
    (hturn :
      Walk.turn h c root p w = (turnInto h c p (pathOf b ds) relative above outer).map some) :
    Performs h c root p w outer wanted (enter h c room (pathOf b ds) relative above p wanted) := by
  induction room generalizing ds above seen relative p w outer wanted with
  | zero => exact absurd (ht.length_le hb) (Nat.not_le.mpr hroom)
  | succ room ih =>
    rw [enter]
    rw [turnInto] at hturn
    cases hopen : openDirectory h c (pathOf b ds) relative above p with
    | error e =>
      rw [hopen] at hturn
      exact performs_failed hturn
    | ok opened =>
      rw [hopen] at hturn
      rcases opened with _ | ⟨g, p'⟩
      · exact performs_finished.turn hturn
      · obtain ⟨hg, -⟩ := placed_of_openDirectory hfs hb ht hopen
        exact (scan_performs_of_placed ih hg (by omega)).turn hturn

/-! ## Iterations -/

theorem Nested.exists_placed (hn : Nested h c b ds frames) :
    ∀ f ∈ frames, ∃ es, Placed h c b es f := by
  induction hn with
  | root hf _ => exact List.forall_mem_singleton.mpr ⟨_, hf⟩
  | entry _ hg _ ih => exact List.forall_mem_cons.mpr ⟨⟨_, hg⟩, ih⟩

/-- **Going on with an iteration is a stretch of turns.** -/
theorem resume_performs (hfs : h.files.Proper) (hb : b.IsNormal)
    (hframes : ∀ f ∈ frames, ∃ ds, Placed h c b ds f) :
    Performs h c root p (.inside frames) [] wanted (resume h c frames p wanted) := by
  induction frames generalizing p wanted with
  | nil => exact performs_finished
  | cons f outer ih =>
    obtain ⟨⟨ds, hf⟩, houter⟩ := List.forall_mem_cons.mp hframes
    have hroom : h.files.directoryCount ≤ ds.length + roomFor h := by
      rw [roomFor]
      omega
    have hscan : Performs h c root p (.inside (f :: outer)) (outer ++ []) wanted
        (scan h c (enter h c (roomFor h)) f f.pending p wanted) := by
      rw [List.append_nil]
      exact scan_performs_of_placed (enter_performs hfs hb) hf hroom
    refine hscan.andThen fun p' wanted' => ?_
    rw [List.append_nil]
    exact ih houter

/-- **Advancing an iteration is a stretch of turns**, wherever it goes on from. -/
theorem advance_performs (hfs : h.files.Proper) (hb : b.IsNormal) (hw : Standing h c b w) :
    Performs h c b.dirText p w [] wanted (w.advance h c b.dirText p wanted) := by
  cases w with
  | unstarted =>
    have hroom : h.files.directoryCount < ([] : List Text).length + roomFor h := by
      rw [roomFor, List.length_nil]
      omega
    rw [← pathOf_nil]
    exact enter_performs hfs hb .root hroom rfl
  | inside frames =>
    refine resume_performs hfs hb fun f hf => ?_
    rcases hw with rfl | ⟨ds, hn⟩
    · exact absurd hf List.not_mem_nil
    · exact hn.exists_placed f hf

end Walk

/-! ## Filters -/

namespace Filter
variable {h : Host} {f : Filter} {w : Walk}

/-- An iteration that has come to its end stays there. -/
theorem advance_inside_nil (wanted : Option Nat) :
    (f.advance h wanted (.inside [])).2 = ⟨[], .inside [], none⟩ := by
  rw [advance]
  split <;> rfl

/-- **An iteration that is advanced takes a stretch of turns**, beginning with what is loaded. If
this ends with an error, the next turn fails; and unless the iteration has ended, it has found as
many files as were asked for. -/
theorem exists_stretch_of_advance (hfs : h.files.Proper) (hb : f.resolver.base.IsNormal)
    (hw : Walk.Standing h f.config f.resolver.base w) (wanted : Option Nat) :
    let done := (f.advance h wanted w).2
    ∃ p' w', Walk.Stretch h f.config f.root f.policy w done.found p' w' ∧
      (done.error = none → done.walk = w') ∧
      (∀ e, done.error = some e → done.walk = .inside [] ∧
        Walk.turn h f.config f.root p' w' = .error e) ∧
      (done.walk ≠ .inside [] → wanted = some done.found.length) := by
  have hq : Walk.Performs h f.config f.root f.policy w [] wanted
      (w.advance h f.config f.root f.policy wanted) := by
    rw [root_eq_dirText hb]
    exact Walk.advance_performs hfs hb hw
  rw [Walk.Performs] at hq
  rw [advance]
  split
  · rename_i hzero
    exact ⟨f.policy, w, .refl _ _, fun _ => rfl, fun e he => absurd he.symm (Option.some_ne_none e),
      fun _ => hzero⟩
  · simp only
    cases hhalt : (w.advance h f.config f.root f.policy wanted).halt with
    | finished =>
      rw [hhalt] at hq
      exact ⟨_, _, hq.1, fun _ => rfl, fun e he => absurd he.symm (Option.some_ne_none e),
        fun hne => absurd rfl hne⟩
    | failed e =>
      rw [hhalt] at hq
      obtain ⟨w', hs, hfail⟩ := hq
      refine ⟨_, w', hs, fun hnone => absurd hnone (Option.some_ne_none e), ?_,
        fun hne => absurd rfl hne⟩
      rintro _ ⟨⟩
      exact ⟨rfl, hfail⟩
    | paused frames =>
      rw [hhalt] at hq
      simp only [List.append_nil] at hq
      exact ⟨_, _, hq.1, fun _ => rfl, fun e he => absurd he.symm (Option.some_ne_none e),
        fun _ => hq.2⟩

end Filter

/-! ## Filters in use -/

/-- An iteration that is on a course: it stands where the course has got to, and if an error has
ended it, the next turn fails with this error. -/
structure Iteration.OnCourse (h : Host) (c : Config) (root : Text) (i : Iteration) : Prop where
  going : i.error = none → ∃ n, Walk.Course h c root n i.walk i.found
  failed : ∀ e, i.error = some e → i.walk = .inside [] ∧
    ∃ n w p, Walk.Course h c root n w i.found ∧ Walk.turn h c root p w = .error e

namespace Iteration.OnCourse
variable {h : Host} {f : Filter} {c : Config} {root : Text} {i : Iteration}

theorem exists_course (hi : i.OnCourse h c root) : ∃ n w, Walk.Course h c root n w i.found := by
  cases herror : i.error with
  | none =>
    obtain ⟨n, hc⟩ := hi.going herror
    exact ⟨n, i.walk, hc⟩
  | some e =>
    obtain ⟨-, n, w, -, hc, -⟩ := hi.failed e herror
    exact ⟨n, w, hc⟩

/-- **An iteration that is advanced stays on its course**, and unless it has ended it has found as
many files more as were asked for. -/
theorem advance (hfs : h.files.Proper) (hb : f.resolver.base.IsNormal)
    (hi : i.OnCourse h f.config f.root) (wanted : Option Nat) :
    (i.after (f.advance h wanted i.walk).2).OnCourse h f.config f.root ∧
      ((f.advance h wanted i.walk).2.walk ≠ .inside [] →
        wanted = some (f.advance h wanted i.walk).2.found.length) := by
  cases herror : i.error with
  | some e =>
    obtain ⟨hwalk, hfailed⟩ := hi.failed e herror
    rw [hwalk, f.advance_inside_nil]
    refine ⟨⟨fun hnone => ?_, ?_⟩, fun hne => absurd rfl hne⟩
    · rw [Iteration.after, herror] at hnone
      exact absurd hnone (Option.some_ne_none e)
    · rw [Iteration.after, herror, List.append_nil]
      rintro _ ⟨⟩
      exact ⟨rfl, hfailed⟩
  | none =>
    obtain ⟨n, hc⟩ := hi.going herror
    have hw := (Filter.root_eq_dirText hb ▸ hc).standing hfs hb
    obtain ⟨p', w', hs, hwalk, hfail, hfound⟩ := f.exists_stretch_of_advance hfs hb hw.1 wanted
    obtain ⟨m, hc'⟩ := hc.stretch hs
    refine ⟨⟨fun hnone => ⟨m, ?_⟩, fun e he => ?_⟩, hfound⟩
    · rw [Iteration.after, herror] at hnone
      rw [Iteration.after, hwalk hnone]
      exact hc'
    · rw [Iteration.after, herror] at he
      obtain ⟨hend, hturn⟩ := hfail e he
      exact ⟨hend, m, w', p', hc', hturn⟩

end Iteration.OnCourse

namespace Session
variable {h : Host} {s : Session}

/-- **No action takes an iteration off its course.** -/
theorem onCourse_step (hfs : h.files.Proper) (hb : s.filter.resolver.base.IsNormal)
    (hs : ∀ i ∈ s.iterations, i.OnCourse h s.filter.config s.filter.root) (a : Action) :
    ∀ i ∈ (s.step h a).iterations, i.OnCourse h s.filter.config s.filter.root := by
  refine forall_iterations_step hs ⟨fun _ => ⟨0, .start⟩, fun e he => ?_⟩
    (fun i hi wanted => (hi.advance hfs hb wanted).1) a
  exact absurd he.symm (Option.some_ne_none e)

/-- **Each iteration of a filter in use is on a course.** -/
theorem onCourse_run (hfs : h.files.Proper) (hb : s.filter.resolver.base.IsNormal)
    (hs : ∀ i ∈ s.iterations, i.OnCourse h s.filter.config s.filter.root) (actions : List Action) :
    ∀ i ∈ (s.run h actions).iterations, i.OnCourse h s.filter.config s.filter.root := by
  induction actions generalizing s with
  | nil => exact hs
  | cons a actions ih =>
    have hstep := onCourse_step hfs hb hs a
    have hfilter := s.step_filter_eq (h := h) a
    rw [run_cons]
    have hrun := ih (s := s.step h a) (by rwa [hfilter]) (by rwa [hfilter])
    rwa [hfilter] at hrun

end Session

namespace Filter
variable {h h₀ : Host} {plan : FilterPlan} {f : Filter}

/-- **Iterations end, and are never inside of a directory twice.**  The filter is one that has been
created, on any host; it is used on a host the files of which do not change, with links of any kind
and with any errors injected, and it has loaded anything before.  Of the files it is only asked that
no name among them is empty, `.` or `..`.

Taken turn by turn, with anything loaded at each of them, an iteration takes no more turns than a
number that the files tell, and finds one file at most in each.  At each moment it is inside of no
more directories than there are, and where links are followed these have different inode numbers.
Each iteration of the filter takes such turns, whatever else is done with the filter, and none that
fails unless it ends with this error.  When it is advanced, by any number of files, it comes to its
end or finds as many as were asked for, and never more than that number in all; so it ends when all
its files are asked for, at once or one after the other. -/
theorem iterations_end (hcwd : h₀.cwd.head? = some '/') (hf : create h₀ plan = .ok f)
    (hfs : h.files.Proper) (p : Policy) :
    (∀ n w found, Walk.Course h f.config f.root n w found →
      n ≤ Walk.turnLimit h ∧ found.length ≤ n) ∧
    (∀ n frames found, Walk.Course h f.config f.root n (.inside frames) found →
      frames.length ≤ h.files.directoryCount ∧
        (f.config.followLinks = true → ∃ inodes : List Nat,
          frames.map (h.inodeAt ·.directory) = inodes.map some ∧ inodes.Nodup)) ∧
    ∀ actions, let s := Session.run h ⟨{ f with policy := p }, [], []⟩ actions
      ∀ i ∈ s.iterations, i.OnCourse h f.config f.root ∧
        ∀ wanted, let done := (s.filter.advance h wanted i.walk).2
          i.found.length + done.found.length ≤ Walk.turnLimit h ∧
            (done.walk = .inside [] ∨ wanted = some done.found.length) := by
  have hfresh : f.Fresh := fresh_of_create hcwd hf
  have hb := hfresh.normal
  have hlimit : ∀ {n w found}, Walk.Course h f.config f.root n w found →
      n ≤ Walk.turnLimit h ∧ found.length ≤ n := by
    intro n w found hc
    exact ⟨(hfresh.root_eq ▸ hc).le_turnLimit hfs hb, hc.length_found_le⟩
  refine ⟨fun n w found => hlimit, fun n frames found hc => ?_, fun actions => ?_⟩
  · obtain rfl | ⟨ds, hn⟩ := ((hfresh.root_eq ▸ hc).standing hfs hb).1
    · exact ⟨Nat.zero_le _, fun _ => ⟨[], rfl, List.nodup_nil⟩⟩
    · refine ⟨hn.length_le hb, fun hlinks => ?_⟩
      cases frames with
      | nil => cases hn
      | cons g outer => exact ⟨g.inodes, hn.nodup_inodes hlinks⟩
  · intro s i hi
    have hs : i.OnCourse h f.config f.root :=
      Session.onCourse_run (s := ⟨{ f with policy := p }, [], []⟩) hfs hb
        (fun i hi => absurd hi List.not_mem_nil) actions i hi
    have hfilter : s.filter = { f with policy := s.filter.policy } :=
      Session.run_filter_eq (s := ⟨{ f with policy := p }, [], []⟩) actions
    refine ⟨hs, fun wanted => ?_⟩
    rw [hfilter]
    obtain ⟨hafter, hfound⟩ := Iteration.OnCourse.advance
      (f := { f with policy := s.filter.policy }) hfs hb hs wanted
    obtain ⟨m, w, hc⟩ := hafter.exists_course
    have hle := (hlimit hc).2.trans (hlimit hc).1
    rw [Iteration.after, List.length_append] at hle
    exact ⟨hle, or_iff_not_imp_left.mpr hfound⟩

/-- Links up, round and to themselves, and a directory that cannot be listed. -/
def tangledHost : Host :=
  { files := .ofEntries
      [("/r/a".toList, { kind := .file [] }), ("/r/d/up".toList, { kind := .link "..".toList }),
       ("/r/d/x".toList, { kind := .file [] }), ("/r/d/y".toList, { kind := .file [] }),
       ("/r/loop".toList, { kind := .link "loop".toList }),
       ("/r/z".toList, ⟨.directory, { listing := some (.other "EIO".toList) }⟩)]
    cwd := "/r".toList
    homes := ⟨none, []⟩
    configHome := none }

/-- When two files have been asked for, the iteration is inside of `/r/d/`, which it has not left by
the link up.  When the others are asked for, it ends with the error of `/r/z`. -/
theorem iterations_end_of_tangledHost :
    ∃ f, create tangledHost { options := { followLinks := true } } = .ok f ∧
      let s := Session.run tangledHost ⟨f, [], []⟩ [.start, .advance 0 (some 2)]
      ∃ i inner outer, s.iterations = [i] ∧ i.walk = .inside [inner, outer] ∧
        i.found = ["/r/a".toList, "/r/d/x".toList] ∧ inner.directory = "/r/d/".toList ∧
        (∃ inodes : List Nat, [inner, outer].map (tangledHost.inodeAt ·.directory) =
          inodes.map some ∧ inodes.Nodup) ∧
        let done := (s.filter.advance tangledHost none i.walk).2
        done.found = ["/r/d/y".toList] ∧ done.error = some (.other "EIO".toList) ∧
          done.walk = .inside [] := by
  obtain ⟨f, hf, hfacts⟩ :
      ∃ f, create tangledHost { options := { followLinks := true } } = .ok f ∧
      let s := Session.run tangledHost ⟨f, [], []⟩ [.start, .advance 0 (some 2)]
      decide (f.config.followLinks = true ∧
        s.iterations.map (fun i => (i.walk, i.found, i.error)) =
          [(.inside [⟨"/r/d/".toList, "d/".toList, ["y".toList], [3, 1], false⟩,
              ⟨"/r/".toList, [], ["loop".toList, "z".toList], [1], false⟩],
            ["/r/a".toList, "/r/d/x".toList], none)] ∧
        s.iterations.map (fun i =>
            let done := (s.filter.advance tangledHost none i.walk).2
            (done.found, done.error)) =
          [(["/r/d/y".toList], some (.other "EIO".toList))]) = true :=
    exists_eq_ok_of_any (by decide +kernel)
  obtain ⟨hlinks, hpaused, hended⟩ := of_decide_eq_true hfacts
  obtain ⟨-, hnested, hsession⟩ := iterations_end rfl hf
    (show tangledHost.files.Proper by decide +kernel) f.policy
  obtain ⟨i, hi, hwalk⟩ := List.map_eq_singleton_iff.mp hpaused
  obtain ⟨hwalk, hfound, herror⟩ : _ ∧ _ ∧ _ := by simpa only [Prod.mk.injEq] using hwalk
  obtain ⟨hcourse, hends⟩ := hsession [.start, .advance 0 (some 2)] i (by rw [hi]; simp)
  obtain ⟨n, hcourse⟩ := hcourse.going herror
  rw [hwalk] at hcourse
  rw [hi, List.map_singleton, List.singleton_inj, Prod.mk.injEq] at hended
  refine ⟨f, hf, i, _, _, hi, hwalk, hfound, rfl, (hnested n _ _ hcourse).2 hlinks, hended.1,
    hended.2, ?_⟩
  exact (hends none).2.resolve_right (Option.some_ne_none _).symm

end Filter
end PathFilter
