import PathFilter.Proofs.History

/-! # The directories above what is allowed

A path is allowed only together with every directory above it.  The question about a path loads
the ignore files of all these directories, the question about one of them those of the directories
above that one only; yet **a directory above an allowed path is allowed whenever it is asked
about** (`Filter.ask_directory_eq_ok_true`), before the question about the path, after it, or with
anything else done in between.  So no rule, however deep or late, lets in something below a
directory that is ruled out.
-/

namespace PathFilter
open PathFilter.Path

/-- The question about a directory that is known to be one. -/
def Query.directory (path : Text) : Query :=
  { path, isDir := some true, present := some true, includeDirectories := true }

namespace Filter
variable {h : Host} {plan : FilterPlan} {f : Filter} {ds es : List Text} {name e path : Text}

/-- What the rules allow that hold for a path, they allow with each directory above it. -/
theorem Fresh.allowsAt_above (hf : f.Fresh) {isDir : Bool} {firstLine : Option Text}
    (hallows : f.AllowsAt h ds name isDir firstLine) (habove : es ++ [e] <+: ds) :
    f.AllowsAt h es e true none := by
  obtain ⟨hway, -⟩ := hallows
  refine ⟨fun as a has => ?_, ?_⟩
  · exact hway as a (has.trans ((List.prefix_append es [e]).trans habove))
  · rw [hf.root_eq]
    exact hway es e habove

/-- What is allowed is allowed by the rules that hold for it. -/
theorem Fresh.exists_allowsAt (hs : h.Sound) (hf : f.Fresh) (hds : ∀ d ∈ ds, IsProper d)
    (hname : IsProper name) {q : Query}
    (hrelative : f.resolver.relative? h.homes q.path = .ok (some (dir ds ++ name)))
    (hallowed : (f.ask h q).2 = .ok true) :
    ∃ isDir firstLine, f.AllowsAt h ds name isDir firstLine := by
  obtain ⟨isDir, present, hprobe⟩ := exists_probe_of_ask hrelative hallowed
  obtain ⟨read, hread⟩ := Host.exists_firstLine_eq hs.mild (f.root ++ (dir ds ++ name))
  obtain ⟨a, hask, ha⟩ := hf.exists_ask_eq hs hds hname hrelative hprobe hread
  obtain rfl : a = true := Except.ok.inj (hask.symm.trans hallowed)
  exact ⟨isDir, _, (ha.mp rfl).2.2⟩

/-- A directory that is known to be one is allowed if the rules that hold for it allow it. -/
theorem Fresh.ask_directory_of_allowsAt (hs : h.Sound) (hf : f.Fresh)
    (hds : ∀ d ∈ ds, IsProper d) (hname : IsProper name)
    (hrelative : f.resolver.relative? h.homes path = .ok (some (dir ds ++ name)))
    (hallows : f.AllowsAt h ds name true none) :
    (f.ask h (.directory path)).2 = .ok true := by
  obtain ⟨read, hread⟩ := Host.exists_firstLine_eq hs.mild (f.root ++ (dir ds ++ name))
  have hprobe : f.probe h (f.root ++ (dir ds ++ name)) (.directory path) = .ok (true, some true) :=
    rfl
  obtain ⟨a, hask, ha⟩ := hf.exists_ask_eq hs hds hname hrelative hprobe hread
  -- the first line of a directory is never looked at
  have hline : f.lineAt h ds name true (.directory path) read = none := by
    simp [lineAt, Query.directory, mayBeScript]
  rw [hline] at ha
  rw [hask, ha.mpr ⟨fun _ => rfl, rfl, hallows⟩]

/-- **A directory above an allowed path is allowed**, whatever has been done with the filter before
either of the questions. -/
theorem ask_directory_eq_ok_true (hs : h.Sound) (hf : create h plan = .ok f)
    (actions actions' : List Action) {q : Query} {relative above : Text}
    (hpath : f.resolver.relative? h.homes q.path = .ok (some relative))
    (hdirectory : f.resolver.relative? h.homes path = .ok (some above))
    (habove : above ++ ['/'] <+: relative)
    (hallowed : ((Session.run h ⟨f, [], []⟩ actions).filter.ask h q).2 = .ok true) :
    ((Session.run h ⟨f, [], []⟩ actions').filter.ask h (.directory path)).2 = .ok true := by
  have h₀ : f.Fresh := fresh_of_create hs.cwd hf
  rw [((Session.faithful_run hs hf actions).coherent.ask_eq hs h₀ q).1] at hallowed
  rw [((Session.faithful_run hs hf actions').coherent.ask_eq hs h₀ _).1]
  -- the names that lead down to the path, and those that lead down to the directory
  obtain ⟨ds, name, hds, hname, rfl⟩ := Resolver.exists_dir_of_relative? h₀.normal hpath
  obtain ⟨es, e, hes, he, rfl⟩ := Resolver.exists_dir_of_relative? h₀.normal hdirectory
  have hall : ∀ c ∈ es ++ [e], c.IsName :=
    List.forall_mem_append.mpr ⟨fun c hc => (hes c hc).1, List.forall_mem_singleton.mpr he.1⟩
  rw [← dir_concat] at habove
  have hprefix : es ++ [e] <+: ds :=
    prefix_of_dir_prefix_append hall (fun d hd => (hds d hd).1) hname.1 habove
  obtain ⟨isDir, firstLine, hallows⟩ := h₀.exists_allowsAt hs hds hname hpath hallowed
  exact h₀.ask_directory_of_allowsAt hs hes he hdirectory (h₀.allowsAt_above hallows hprefix)

/-- The directory of the file `d/e` is allowed after two iterations over the files. -/
theorem ask_directory_above_e : ∃ f, create nestedHost {} = .ok f ∧
    ((Session.run nestedHost ⟨f, [], []⟩ interleaved).filter.ask nestedHost
      (.directory "/r/d".toList)).2 = .ok true := by
  have hs : nestedHost.Sound := Host.sound_of_ofEntries rfl rfl (by decide)
  obtain ⟨f, hf, hfacts⟩ : ∃ f, create nestedHost {} = .ok f ∧
      decide (f.resolver.relative? nestedHost.homes "/r/d/e".toList = .ok (some "d/e".toList) ∧
        f.resolver.relative? nestedHost.homes "/r/d".toList = .ok (some "d".toList) ∧
        (f.ask nestedHost { path := "/r/d/e".toList }).2 = .ok true) = true :=
    exists_eq_ok_of_any (by decide +kernel)
  obtain ⟨hpath, hdirectory, hallowed⟩ := of_decide_eq_true hfacts
  exact ⟨f, hf, ask_directory_eq_ok_true hs hf [] interleaved hpath hdirectory (by decide) hallowed⟩

end Filter
end PathFilter
