import PathFilter.Proofs.History
import PathFilter.Proofs.ProbeErrors

/-! # Filters in use while files change

Between the questions that a filter is asked, and between the steps of iterations that go on, files
are written and removed (`Event`, `Scene`).  What is written may have errors attached to it.

**As long as all of these errors say no more than that something is absent, none is ever passed on**
(`Filter.hidesErrors_of_run`): the filter is created with no such error, and whatever happens then,
no question is answered with one and no iteration ends with one.  For this it is enough that mild
errors stay mild when files change (`FileSystem.Mild.put`); that an iteration has looked at files
that are gone when it goes on makes no difference.
-/

namespace PathFilter

/-! ## Writing and removing files -/

namespace FileSystem
variable {fs : FileSystem} {P : Location → Entry → Prop}

theorem forall_addDirectories {l : Location} {names : List Text}
    (hdir : ∀ l', l' <+: l ++ names → P l' { kind := .directory })
    (hfs : ∀ d ∈ fs.nodes, P d.1 d.2.toEntry) :
    ∀ d ∈ (fs.addDirectories l names).nodes, P d.1 d.2.toEntry := by
  induction names generalizing fs l with
  | nil => exact hfs
  | cons name rest ih =>
    cases rest with
    | nil => exact hfs
    | cons second rest =>
      have hsplit : l ++ name :: second :: rest = l ++ [name] ++ second :: rest := by simp
      rw [hsplit] at hdir
      rw [addDirectories]
      · refine ih hdir ?_
        split
        · exact hfs
        · intro d hd
          rcases List.mem_cons.mp hd with rfl | hd
          · exact hdir _ (List.prefix_append _ _)
          · exact hfs d hd
      · exact List.cons_ne_nil second rest

/-- What holds of all entries, of one that is put, and of bare directories on the way to it, still
holds of all entries then. -/
theorem forall_put {path : Text} {e : Entry}
    (hdir : ∀ l, l <+: locationOf path → P l { kind := .directory })
    (hfs : ∀ d ∈ fs.nodes, P d.1 d.2.toEntry) (he : P (locationOf path) e) :
    ∀ d ∈ (fs.put path e).nodes, P d.1 d.2.toEntry := by
  have hdirs := forall_addDirectories (l := []) hdir hfs
  rw [put, putAt]
  simp only
  split
  all_goals
    intro d hd
    rcases List.mem_cons.mp hd with rfl | hd
    · exact he
    · exact hdirs d (List.mem_of_mem_filter hd)

theorem Mild.put (hm : fs.Mild) {e : Entry} (he : e.faults.Mild) (path : Text) :
    (fs.put path e).Mild :=
  forall_put (P := fun _ e => e.faults.Mild) (fun _ _ => ⟨nofun, nofun, nofun⟩) hm he

theorem Mild.remove (hm : fs.Mild) (path : Text) : (fs.remove path).Mild :=
  fun d hd => hm d (List.mem_of_mem_filter hd)

theorem Proper.put (hfs : fs.Proper) {path : Text} (hpath : LeadsDown path) (e : Entry) :
    (fs.put path e).Proper :=
  forall_put (P := fun l _ => ∀ c ∈ l, Path.IsProper c)
    (fun _ hl c hc => hpath c (hl.subset hc)) hfs hpath

theorem Proper.remove (hfs : fs.Proper) (path : Text) : (fs.remove path).Proper :=
  fun d hd => hfs d (List.mem_of_mem_filter hd)

end FileSystem

/-! ## Events -/

/-- What happens while a filter is in use: something is done with it, or a file changes. -/
inductive Event where
  | act (a : Action)
  | write (path : Text) (e : Entry)
  | remove (path : Text)

/-- Errors that are attached to what is written are mild. -/
def Event.Mild : Event → Prop
  | .write _ e => e.faults.Mild
  | .act _ | .remove _ => True

instance (event : Event) : Decidable event.Mild :=
  match event with
  | .write _ e => inferInstanceAs (Decidable e.faults.Mild)
  | .act _ | .remove _ => .isTrue trivial

/-- A filter in use on a host. -/
structure Scene where
  host : Host
  session : Session

namespace Scene

/-- What an event makes of a scene. -/
def step (s : Scene) : Event → Scene
  | .act a => { s with session := s.session.step s.host a }
  | .write path e => { s with host := { s.host with files := s.host.files.put path e } }
  | .remove path => { s with host := { s.host with files := s.host.files.remove path } }

/-- What events, one after the other, make of a scene. -/
def run (s : Scene) (events : List Event) : Scene :=
  events.foldl step s

/-- All errors of the file system are mild, and none has been passed on. -/
structure Undisturbed (s : Scene) : Prop where
  mild : s.host.files.Mild
  answers : ∀ answer ∈ s.session.answers, HidesErrors answer
  iterations : ∀ i ∈ s.session.iterations, i.error = none

variable {s : Scene}

/-- **Nothing that is done with a filter passes an error on.** -/
theorem Undisturbed.act (hs : s.Undisturbed) (a : Action) : (s.step (.act a)).Undisturbed := by
  refine ⟨hs.mild, ?_, Session.forall_iterations_step hs.iterations rfl (fun i hi wanted => ?_) a⟩
  · cases a with
    | ask q =>
      intro answer hanswer
      rcases List.mem_append.mp hanswer with hanswer | hanswer
      · exact hs.answers answer hanswer
      · rw [List.mem_singleton.mp hanswer]
        exact s.session.filter.ask_hidesErrors hs.mild q
    | start => exact hs.answers
    | advance n wanted =>
      rw [step, Session.step]
      cases s.session.iterations[n]? with
      | none => exact hs.answers
      | some i => exact hs.answers
  · rw [Iteration.after, hi, s.session.filter.advance_error hs.mild]
    rfl

theorem Undisturbed.step (hs : s.Undisturbed) {event : Event} (hevent : event.Mild) :
    (s.step event).Undisturbed := by
  cases event with
  | act a => exact hs.act a
  | write path e => exact ⟨hs.mild.put hevent path, hs.answers, hs.iterations⟩
  | remove path => exact ⟨hs.mild.remove path, hs.answers, hs.iterations⟩

theorem Undisturbed.run (hs : s.Undisturbed) {events : List Event}
    (hevents : ∀ event ∈ events, event.Mild) : (s.run events).Undisturbed := by
  induction events generalizing s with
  | nil => exact hs
  | cons event events ih =>
    exact ih (hs.step (hevents event List.mem_cons_self))
      fun e he => hevents e (List.mem_cons_of_mem event he)

end Scene

namespace Filter

/-- **Errors that say of a path that nothing usable is there are never passed on.**  A filter is not
kept from being created by one; and while it is in use and files change, no question is answered
with one, and no iteration ends with one. -/
theorem hidesErrors_of_run {h : Host} (hm : h.files.Mild) (plan : FilterPlan) {events : List Event}
    (hevents : ∀ event ∈ events, event.Mild) :
    (∀ e, create h plan ≠ .error (.access e)) ∧
    ∀ f, create h plan = .ok f →
      let s := (Scene.run ⟨h, ⟨f, [], []⟩⟩ events).session
      (∀ answer ∈ s.answers, ∀ e, answer ≠ .error (.access e)) ∧
        ∀ i ∈ s.iterations, i.error = none := by
  refine ⟨create_hidesErrors hm plan, fun f _ => ?_⟩
  have hbegin : Scene.Undisturbed ⟨h, ⟨f, [], []⟩⟩ :=
    ⟨hm, fun answer hanswer => absurd hanswer List.not_mem_nil,
      fun i hi => absurd hi List.not_mem_nil⟩
  have hrun := hbegin.run hevents
  exact ⟨hrun.answers, hrun.iterations⟩

/-- A root with errors on the way: an ignore file that may not be opened, a directory that may not
be listed, a file that cannot be probed, and a link that leads to itself. -/
def troubledHost : Host :=
  { files := .ofEntries
      [("/r/.gitignore".toList, ⟨.file [], { opening := some .accessDenied }⟩),
       ("/r/a".toList, ⟨.file [], {}⟩),
       ("/r/d".toList, ⟨.directory, { listing := some .accessDenied }⟩),
       ("/r/e/b".toList, ⟨.file [], {}⟩),
       ("/r/l".toList, ⟨.link "l".toList, {}⟩),
       ("/r/s".toList, ⟨.file [], { stat := some .nameTooLong }⟩)]
    cwd := "/r".toList
    homes := ⟨none, []⟩
    configHome := none }

/-- Two iterations, the first of which has still to enter a directory when it is removed, and
questions about the file that cannot be probed and about one beside an ignore file that has been
written. -/
def troubledEvents : List Event :=
  [.act .start, .act (.advance 0 (some 1)), .remove "/r/e".toList,
   .write "/r/f/.gitignore".toList ⟨.directory, { opening := some .isDirectory }⟩,
   .write "/r/f/c".toList ⟨.file [], {}⟩, .act (.ask { path := "/r/s".toList }), .act .start,
   .act (.advance 1 none), .act (.ask { path := "/r/f/c".toList }), .act (.advance 0 none)]

/-- Both questions are answered, and both iterations come to their end. -/
theorem hidesErrors_of_troubledEvents : ∃ f, create troubledHost {} = .ok f ∧
    let s := (Scene.run ⟨troubledHost, ⟨f, [], []⟩⟩ troubledEvents).session
    s.answers.length = 2 ∧ s.iterations.length = 2 ∧
      (∀ answer ∈ s.answers, ∀ e, answer ≠ .error (.access e)) ∧
      ∀ i ∈ s.iterations, i.error = none := by
  have hm : troubledHost.files.Mild := by decide +kernel
  have hevents : ∀ event ∈ troubledEvents, event.Mild := by decide +kernel
  obtain ⟨f, hf, hlength⟩ : ∃ f, create troubledHost {} = .ok f ∧
      (let s := (Scene.run ⟨troubledHost, ⟨f, [], []⟩⟩ troubledEvents).session
       decide (s.answers.length = 2 ∧ s.iterations.length = 2)) = true :=
    exists_eq_ok_of_any (by decide +kernel)
  obtain ⟨hanswers, hiterations⟩ := of_decide_eq_true hlength
  exact ⟨f, hf, hanswers, hiterations, (hidesErrors_of_run hm {} hevents).2 f hf⟩

end Filter
end PathFilter
