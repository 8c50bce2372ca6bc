import PathFilter.Proofs.Entries
import PathFilter.Proofs.FilterState

/-! # Independence of what has been done before

A filter is asked about paths, and iterations over its files are begun, advanced by some files and
left, in any order; all of them share the ignore files that have been loaded (`Session`).

**None of this shows in what is answered or found**: each question is answered as if it were the
first thing that is done with the filter, and each iteration finds the files that an enumeration
of the filter as it was created finds, from the first one on
(`Session.Faithful.run`, `Filter.answers_and_files_of_run`).

The argument is one invariant that each action keeps (`Session.Faithful`): the filter is coherent
with what it was, and what an iteration has found, followed by what its frames have still to find,
are all files.
-/

namespace PathFilter

/-- An iteration over the files of a filter: where it stands, the files that it has found so far,
and the error that has ended it, if one has. -/
structure Iteration where
  walk : Walk := .unstarted
  found : List Text := []
  error : Option Errno := none

/-- What can be done with a filter. -/
inductive Action where
  | ask (q : Query)
  | start
  /-- Advances one of the iterations, by the given number of files or to its end. -/
  | advance (i : Nat) (wanted : Option Nat)

/-- The question that an action asks. -/
def Action.query? : Action → Option Query
  | .ask q => some q
  | .start | .advance _ _ => none

/-- A filter in use: what it has become, the iterations that have been begun, and what has been
answered. -/
structure Session where
  filter : Filter
  iterations : List Iteration := []
  answers : List (Except Failure Bool) := []

namespace Iteration
variable {h : Host} {f f' f₀ : Filter} {i : Iteration}

/-- An iteration after it has been advanced. -/
def after (i : Iteration) (done : Advance) : Iteration :=
  ⟨done.walk, i.found ++ done.found, i.error <|> done.error⟩

/-- An iteration that has found a part of all files, and has the others still to find. -/
structure Faithful (h : Host) (f₀ f : Filter) (i : Iteration) : Prop where
  error : i.error = none
  found : ∃ rest, f₀.Owes h f rest i.walk ∧ i.found ++ rest = f₀.allFiles h

theorem Faithful.mono (hi : Faithful h f₀ f i) (hle : f.policy.Extends f'.policy) :
    Faithful h f₀ f' i := by
  obtain ⟨rest, ho, hfound⟩ := hi.found
  exact ⟨hi.error, rest, ho.mono hle, hfound⟩

/-- An iteration that has been begun has all files still to find. -/
theorem faithful_start : Faithful h f₀ f {} :=
  ⟨rfl, f₀.allFiles h, rfl, rfl⟩

/-- An iteration that has ended has found all files. -/
theorem Faithful.found_eq (hi : Faithful h f₀ f i) (hend : i.walk = .inside []) :
    i.found = f₀.allFiles h := by
  obtain ⟨rest, ho, hfound⟩ := hi.found
  rw [hend] at ho
  rw [← hfound, ho.eq_nil, List.append_nil]

end Iteration

namespace Session
variable {h : Host} {f₀ : Filter} {s : Session} {a : Action}

/-- What an action makes of a session. -/
def step (h : Host) (s : Session) : Action → Session
  | .ask q =>
    { s with filter := (s.filter.ask h q).1, answers := s.answers ++ [(s.filter.ask h q).2] }
  | .start => { s with iterations := s.iterations ++ [{}] }
  | .advance n wanted =>
    match s.iterations[n]? with
    | none => s
    | some i =>
      let (filter, done) := s.filter.advance h wanted i.walk
      { s with filter, iterations := s.iterations.set n (i.after done) }

/-- What actions, one after the other, make of a session. -/
def run (h : Host) (s : Session) (actions : List Action) : Session :=
  actions.foldl (step h) s

theorem run_cons (h : Host) (s : Session) (a : Action) (actions : List Action) :
    s.run h (a :: actions) = (s.step h a).run h actions :=
  rfl

/-- What is done with a filter changes nothing of it but what is loaded. -/
theorem step_filter_eq (a : Action) :
    (s.step h a).filter = { s.filter with policy := (s.step h a).filter.policy } := by
  cases a with
  | ask q => exact Filter.ask_fst_eq
  | start => rfl
  | advance n wanted =>
    rw [step]
    cases s.iterations[n]? with
    | none => rfl
    | some i => exact Filter.advance_fst_eq

theorem run_filter_eq (actions : List Action) :
    (s.run h actions).filter = { s.filter with policy := (s.run h actions).filter.policy } := by
  induction actions generalizing s with
  | nil => rfl
  | cons a actions ih =>
    rw [run_cons, ih, step_filter_eq a]

/-- **What holds of each iteration holds of each after any action**, if it holds of one that is
begun, and if advancing one keeps it. -/
theorem forall_iterations_step {P : Iteration → Prop} (hs : ∀ i ∈ s.iterations, P i) (hstart : P {})
    (hadvance : ∀ i, P i → ∀ wanted, P (i.after (s.filter.advance h wanted i.walk).2))
    (a : Action) : ∀ i ∈ (s.step h a).iterations, P i := by
  cases a with
  | ask q => exact hs
  | start => exact List.forall_mem_append.mpr ⟨hs, List.forall_mem_singleton.mpr hstart⟩
  | advance n wanted =>
    rw [step]
    cases hn : s.iterations[n]? with
    | none => exact hs
    | some i =>
      intro j hj
      rcases List.mem_or_eq_of_mem_set hj with hj | rfl
      · exact hs j hj
      · exact hadvance i (hs i (List.mem_of_getElem? hn)) wanted

/-- A session that shows nothing of its history: the filter is coherent with what it was, and each
iteration has found a part of all files. -/
structure Faithful (h : Host) (f₀ : Filter) (s : Session) : Prop where
  coherent : f₀.Coherent h s.filter
  iterations : ∀ i ∈ s.iterations, i.Faithful h f₀ s.filter

/-- **No action shows in a session**, and questions are answered as they would have been at
first. -/
theorem Faithful.step (hs : h.Sound) (h₀ : f₀.Fresh) (hf : Faithful h f₀ s) :
    Faithful h f₀ (s.step h a) ∧
      (s.step h a).answers = s.answers ++ a.query?.toList.map fun q => (f₀.ask h q).2 := by
  cases a with
  | ask q =>
    obtain ⟨hanswer, hcoherent, hle⟩ := hf.coherent.ask_eq hs h₀ q
    exact ⟨⟨hcoherent, fun i hi => (hf.iterations i hi).mono hle⟩,
      congrArg (s.answers ++ [·]) hanswer⟩
  | start =>
    refine ⟨⟨hf.coherent, fun i hi => ?_⟩, (List.append_nil _).symm⟩
    rcases List.mem_append.mp hi with hi | hi
    · exact hf.iterations i hi
    · rw [List.mem_singleton.mp hi]
      exact Iteration.faithful_start
  | advance n wanted =>
    rw [Session.step]
    cases hn : s.iterations[n]? with
    | none => exact ⟨hf, (List.append_nil _).symm⟩
    | some i =>
      have hi := hf.iterations i (List.mem_of_getElem? hn)
      obtain ⟨rest, ho, hfound⟩ := hi.found
      obtain ⟨hcoherent, hle, herror, rest', ho', hfound', -⟩ :=
        hf.coherent.advance hs h₀ ho wanted
      refine ⟨⟨hcoherent, fun j hj => ?_⟩, (List.append_nil _).symm⟩
      -- the other iterations keep their frames, and what these find does not depend on the rules
      -- that have been loaded since
      rcases List.mem_or_eq_of_mem_set hj with hj | rfl
      · exact (hf.iterations j hj).mono hle
      · refine ⟨?_, rest', ho', ?_⟩
        · rw [Iteration.after, hi.error, herror]
          rfl
        · rw [Iteration.after, List.append_assoc, hfound', hfound]

/-- **A session shows nothing of its history.** -/
theorem Faithful.run (hs : h.Sound) (h₀ : f₀.Fresh) (hf : Faithful h f₀ s)
    (actions : List Action) :
    Faithful h f₀ (s.run h actions) ∧ (s.run h actions).answers =
      s.answers ++ (actions.filterMap Action.query?).map fun q => (f₀.ask h q).2 := by
  induction actions generalizing s with
  | nil => exact ⟨hf, (List.append_nil _).symm⟩
  | cons a actions ih =>
    obtain ⟨hstep, hanswers⟩ := hf.step (a := a) hs h₀
    obtain ⟨hrun, hrest⟩ := ih hstep
    refine ⟨hrun, ?_⟩
    rw [run_cons, hrest, hanswers, List.append_assoc]
    cases hq : a.query? <;> simp [hq]

/-- Whatever has been done with a filter that has been created, it is coherent with what it was,
and each iteration has found a part of all files. -/
theorem faithful_run (hs : h.Sound) {plan : FilterPlan} {f : Filter}
    (hf : Filter.create h plan = .ok f) (actions : List Action) :
    Faithful h f (Session.run h ⟨f, [], []⟩ actions) := by
  have h₀ : f.Fresh := Filter.fresh_of_create hs.cwd hf
  have hbegin : Faithful h f ⟨f, [], []⟩ := ⟨h₀.coherent, fun i hi => absurd hi List.not_mem_nil⟩
  exact (hbegin.run hs h₀ actions).1

end Session

namespace Filter
variable {h : Host} {plan : FilterPlan} {f : Filter}

/-- **What is done with a filter does not depend on what has been done before.**  Of a filter that
has been created, each question is answered as if it were the first one; each iteration, advanced
as it may be, finds files in the order of an enumeration of the filter as it was created, and has
found all of them when it ends; and an enumeration that is begun now finds the same files. -/
theorem answers_and_files_of_run (hs : h.Sound) (hf : create h plan = .ok f)
    (actions : List Action) :
    let s := Session.run h ⟨f, [], []⟩ actions
    s.answers = (actions.filterMap Action.query?).map (fun q => (f.ask h q).2) ∧
      (∀ i ∈ s.iterations, i.error = none ∧ i.found <+: (f.enumerate h).2.found ∧
        (i.walk = .inside [] → i.found = (f.enumerate h).2.found)) ∧
      (s.filter.enumerate h).2 = (f.enumerate h).2 := by
  have h₀ : f.Fresh := fresh_of_create hs.cwd hf
  have hbegin : Session.Faithful h f ⟨f, [], []⟩ :=
    ⟨h₀.coherent, fun i hi => absurd hi List.not_mem_nil⟩
  obtain ⟨hrun, hanswers⟩ := hbegin.run hs h₀ actions
  have hfirst := h₀.coherent.enumerate_eq hs h₀
  refine ⟨hanswers, ?_, (hrun.coherent.enumerate_eq hs h₀).trans hfirst.symm⟩
  intro i hi
  obtain ⟨herror, rest, ho, hfound⟩ := hrun.iterations i hi
  rw [hfirst, ← hfound]
  refine ⟨herror, List.prefix_append _ _, fun hend => ?_⟩
  rw [hend] at ho
  rw [ho.eq_nil, List.append_nil]

/-- A root with a file and a directory, whose ignore file rules out one of the two files in it. -/
def nestedHost : Host :=
  { files := .ofEntries
      [("/r/a".toList, { kind := .file [] }), ("/r/d/.c".toList, { kind := .file [] }),
       ("/r/d/.gitignore".toList, { kind := .file [46, 99] }),
       ("/r/d/e".toList, { kind := .file [] })]
    cwd := "/r".toList
    homes := ⟨none, []⟩
    configHome := none }

/-- Two iterations, the second of which runs to its end while the first one stands behind its first
file, and a question about a file that is ruled out. -/
def interleaved : List Action :=
  [.start, .advance 0 (some 1), .ask { path := "/r/d/.c".toList }, .start, .advance 1 none,
   .advance 0 none]

/-- Both iterations find what an enumeration finds, and the question is answered as at first. -/
theorem answers_and_files_of_interleaved : ∃ f, create nestedHost {} = .ok f ∧
    let s := Session.run nestedHost ⟨f, [], []⟩ interleaved
    s.iterations.length = 2 ∧
      s.answers = [(f.ask nestedHost { path := "/r/d/.c".toList }).2] ∧
      ∀ i ∈ s.iterations, i.found = (f.enumerate nestedHost).2.found := by
  have hs : nestedHost.Sound := Host.sound_of_ofEntries rfl rfl (by decide)
  obtain ⟨f, hf, hend⟩ : ∃ f, create nestedHost {} = .ok f ∧
      (let s := Session.run nestedHost ⟨f, [], []⟩ interleaved
       decide (s.iterations.length = 2) && s.iterations.all (·.walk = .inside [])) = true :=
    exists_eq_ok_of_any (by decide +kernel)
  obtain ⟨hlength, hall⟩ := Bool.and_eq_true_iff.mp hend
  obtain ⟨hanswers, hfound, -⟩ := answers_and_files_of_run hs hf interleaved
  refine ⟨f, hf, of_decide_eq_true hlength, hanswers, fun i hi => (hfound i hi).2.2 ?_⟩
  exact of_decide_eq_true (List.all_eq_true.mp hall i hi)

end Filter
end PathFilter
