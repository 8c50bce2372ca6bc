import PathFilter.Proofs.FoundLinks

/-! # Relative names and full paths

A path below the root can be given in full, or by its name relative to the root; an enumeration
gives one or the other.  **Both ask the same question** (`Filter.ask_relative_eq_ask_full`), of a
filter with any history and on a file system with any errors, and they leave the same filter
behind.

A relative name whose first component begins with `~` is not one of these: it is read as a path in
a home directory, and asks for the path with that directory written out
(`Resolver.relative?_expand`).  So a file below a directory that is called `~` is allowed under its
full path only, even if an enumeration has just given it by its name
(`Filter.relative_name_in_home_denied`).
-/

namespace PathFilter
open PathFilter.Path

/-- A name relative to a directory: names that lead down, with slashes between them. -/
def Path.IsRelativeName (r : Text) : Prop :=
  ∃ cs, cs ≠ [] ∧ (∀ c ∈ cs, IsProper c) ∧ r = Text.joinWith '/' cs

theorem Path.isRelativeName_dir_append {ds : List Text} {name : Text} (hds : ∀ d ∈ ds, IsProper d)
    (hname : IsProper name) : IsRelativeName (dir ds ++ name) :=
  ⟨ds ++ [name], by simp,
    List.forall_mem_append.mpr ⟨hds, List.forall_mem_singleton.mpr hname⟩,
    (joinWith_concat ds name).symm⟩

/-! ## Home directories -/

namespace Homes
variable {homes : Homes} {user home : Text} {rest : List Text}

/-- What `~` and the name of a user stand for, alone or in front of a slash. -/
theorem expand_user (homes : Homes) (huser : '/' ∉ user) {t : Text}
    (ht : t = [] ∨ t.head? = some '/') :
    homes.expand ('~' :: (user ++ t)) =
      match homes.of user with
      | none => '~' :: (user ++ t)
      | some home =>
        if Text.dropTrailing (· = '/') home ++ t = [] then ['/']
        else Text.dropTrailing (· = '/') home ++ t := by
  have hname : ∀ c ∈ user, decide (c ≠ '/') = true := fun c hc =>
    decide_eq_true fun e => huser (e ▸ hc)
  have hfirst : Text.beforeFirst '/' (user ++ t) = user := by
    rw [Text.beforeFirst, List.takeWhile_append_of_pos hname]
    rcases ht with rfl | ht
    · simp
    · obtain ⟨t, rfl⟩ := List.head?_eq_some_iff.mp ht
      simp
  have hbehind : (user ++ t).dropWhile (· ≠ '/') = t := by
    rw [List.dropWhile_append_of_pos hname]
    rcases ht with rfl | ht
    · rfl
    · obtain ⟨t, rfl⟩ := List.head?_eq_some_iff.mp ht
      simp
  rw [expand, hfirst, hbehind]
  cases homes.of user with
  | none => rfl
  | some home => simp only [List.isEmpty_iff]

/-- A home directory that is an absolute path stands in front of the other names. -/
theorem expandPathname_of_expand (hexpand : homes.expand ('~' :: user) = home)
    (hhome : home.head? = some '/') :
    homes.expandPathname ⟨.relative, ('~' :: user) :: rest⟩ =
      .ok { Pathname.ofText home with
        components := (Pathname.ofText home).components ++ rest } := by
  subst hexpand
  unfold expandPathname
  simp only [List.head?_cons, if_pos, hhome]
  rfl

/-- A relative name that begins with a home directory is read as the path with that directory
written out. -/
theorem expandPathname_joinWith (hcs : ∀ c ∈ ('~' :: user) :: rest, IsProper c)
    (hhome : (homes.expand (Text.joinWith '/' (('~' :: user) :: rest))).head? = some '/') :
    homes.expandPathname (.ofText (Text.joinWith '/' (('~' :: user) :: rest))) =
      .ok (.ofText (homes.expand (Text.joinWith '/' (('~' :: user) :: rest)))) := by
  have huser : '/' ∉ user := fun hc =>
    (hcs _ List.mem_cons_self).1.2 (List.mem_cons_of_mem '~' hc)
  rw [Pathname.ofText_joinWith (by simp) hcs]
  by_cases hnil : rest = []
  · subst hnil
    rw [expandPathname_of_expand rfl hhome, List.append_nil]
    rfl
  · have hfirst := homes.expand_user huser (t := []) (.inl rfl)
    have hall := homes.expand_user huser (t := '/' :: Text.joinWith '/' rest) (.inr rfl)
    have hrest : ∀ c ∈ rest, IsProper c := fun c hc => hcs c (List.mem_cons_of_mem _ hc)
    rw [Text.joinWith_cons '/' _ hnil, List.cons_append] at hhome ⊢
    rw [hall] at hhome ⊢
    cases hof : homes.of user with
    | none =>
      rw [hof] at hhome
      cases hhome
    | some home =>
      have hend := Text.endsIn_dropTrailing '/' home
      simp only [hof, List.append_nil] at hfirst hhome ⊢
      generalize Text.dropTrailing (· = '/') home = top at *
      rw [if_neg (by simp)] at hhome ⊢
      by_cases htop : top = []
      · -- the home directory is the root directory
        subst htop
        have hnormal : Pathname.IsNormal ⟨.slash, rest⟩ := ⟨Anchor.noConfusion, hrest⟩
        have htext : Pathname.toText ⟨.slash, rest⟩ = '/' :: Text.joinWith '/' rest :=
          Pathname.toText_of_anchored hnormal.anchored
        rw [expandPathname_of_expand hfirst rfl, List.nil_append, ← htext, hnormal.ofText_toText]
        rfl
      · rw [if_neg htop] at hfirst
        rw [List.head?_append_of_ne_nil _ htop] at hhome
        rw [expandPathname_of_expand hfirst hhome,
          Pathname.ofText_append_joinWith hhome hend hnil hrest]

end Homes

/-! ## Questions -/

namespace Resolver
variable {homes : Homes} {r : Resolver} {t : Text}

/-- **A relative name that does not begin with `~` is that of the path below the base.** -/
theorem relative?_of_isRelativeName (hr : r.base.IsNormal) (ht : IsRelativeName t)
    (hhome : t.head? ≠ some '~') :
    r.relative? homes t = r.relative? homes (r.base.dirText ++ t) := by
  obtain ⟨cs, hne, hcs, rfl⟩ := ht
  rw [relative?_dirText_append r homes hr hne hcs]
  have hexpand : homes.expandPathname (.ofText (Text.joinWith '/' cs)) = .ok ⟨.relative, cs⟩ := by
    rw [Pathname.ofText_joinWith hne hcs]
    obtain ⟨first, rest, rfl⟩ := List.exists_cons_of_ne_nil hne
    have hfirst : first.head? ≠ some '~' := by
      obtain ⟨a, first, rfl⟩ := List.exists_cons_of_ne_nil (hcs first List.mem_cons_self).1.1
      by_cases hnil : rest = []
      · subst hnil
        exact hhome
      · rw [Text.joinWith_cons '/' _ hnil] at hhome
        exact hhome
    unfold Homes.expandPathname
    simp only [if_neg hfirst]
  have hunder : r.base.under ⟨.relative, cs⟩ = r.base.into cs := if_pos rfl
  have hbelow : r.base.below? (r.base.into cs) = some cs :=
    Pathname.below?_eq_some_iff.mpr ⟨rfl, hne, rfl⟩
  rw [relative?, resolve, hexpand, Except.map, hunder, (hr.into hcs).normalize_eq, Except.map,
    hbelow]
  rfl

/-- **A relative name that begins with `~` is that of the path with the home directory written
out**, if that is an absolute path. -/
theorem relative?_expand (ht : IsRelativeName t) (hhome : (homes.expand t).head? = some '/') :
    r.relative? homes t = r.relative? homes (homes.expand t) := by
  obtain ⟨cs, hne, hcs, rfl⟩ := ht
  obtain ⟨first, rest, rfl⟩ := List.exists_cons_of_ne_nil hne
  obtain ⟨a, user, rfl⟩ := List.exists_cons_of_ne_nil (hcs first List.mem_cons_self).1.1
  have hanchored := Anchor.ofText_ne_relative hhome
  obtain rfl : a = '~' := by
    by_contra ha
    -- without a home directory the path would not be absolute
    obtain ⟨t, ht⟩ : ∃ t, Text.joinWith '/' ((a :: user) :: rest) = a :: t := by
      cases rest with
      | nil => exact ⟨user, rfl⟩
      | cons b bs => exact ⟨_, rfl⟩
    have hsame : homes.expand (a :: t) = a :: t := by
      unfold Homes.expand
      split
      · rename_i heq
        exact absurd (List.cons.inj heq).1 ha
      · rfl
    rw [ht, hsame] at hhome
    have hslash : a = '/' := Option.some.inj hhome
    exact (hcs _ List.mem_cons_self).1.2 (hslash ▸ List.mem_cons_self)
  rw [relative?, resolve, Homes.expandPathname_joinWith hcs hhome, relative?, resolve,
    homes.expandPathname_of_anchored (p := .ofText _) hanchored]

end Resolver

namespace Filter
variable {h : Host} {f : Filter} {q : Query}

/-- A question looks at its path only to relate it to the root. -/
theorem ask_eq_of_relative? {path : Text}
    (hrelative : f.resolver.relative? h.homes q.path = f.resolver.relative? h.homes path) :
    f.ask h q = f.ask h { q with path } := by
  rw [ask, ask, hrelative]
  rfl

end Filter

/-! ## What iterations give -/

/-- A frame for a directory below the root, with names in it that lead down. -/
structure Frame.Proper (f : Frame) : Prop where
  relative : ∃ ds, (∀ d ∈ ds, IsProper d) ∧ f.relative = dir ds
  pending : ∀ n ∈ f.pending, IsProper n

/-- A stretch of an iteration gives relative names, where those are to be given, and stops in
frames that it can go on from. -/
structure Progress.GivesNames (c : Config) (q : Progress) : Prop where
  found : c.relative = true → ∀ r ∈ q.found, IsRelativeName r
  frames : ∀ frames, q.halt = .paused frames → ∀ f ∈ frames, f.Proper

namespace Walk
variable {h : Host} {c : Config} {p : Policy} {f : Frame} {ds above : List Text}

/-- Where nothing has been found, nothing but relative names has been given. -/
theorem givesNames_nil {wanted : Option Nat} {halt : Halt}
    (hhalt : ∀ frames, halt = .paused frames → ∀ f ∈ frames, f.Proper) :
    Progress.GivesNames c ⟨[], p, wanted, halt⟩ :=
  ⟨fun _ _ hr => absurd hr List.not_mem_nil, hhalt⟩

theorem givesNames_andThen {q : Progress} {outer : List Frame}
    {next : Policy → Option Nat → Progress} (hq : q.GivesNames c) (houter : ∀ f ∈ outer, f.Proper)
    (hnext : ∀ p w, (next p w).GivesNames c) : (andThen q outer next).GivesNames c := by
  rw [andThen]
  cases hhalt : q.halt with
  | finished =>
    refine ⟨fun hrelative r hr => ?_, (hnext _ _).frames⟩
    rcases List.mem_append.mp hr with hr | hr
    · exact hq.found hrelative r hr
    · exact (hnext _ _).found hrelative r hr
  | failed e => exact hq
  | paused frames =>
    refine ⟨hq.found, ?_⟩
    rintro _ ⟨⟩ f hf
    rcases List.mem_append.mp hf with hf | hf
    · exact hq.frames frames hhalt f hf
    · exact houter f hf

/-- **Scanning a directory gives relative names**, if entering one below does so. -/
theorem scan_givesNames {enter : Text → Text → List Nat → Policy → Option Nat → Progress}
    (henter : ∀ directory es above p w, (∀ e ∈ es, IsProper e) →
      (enter directory (dir es) above p w).GivesNames c)
    (hds : ∀ d ∈ ds, IsProper d) (hf : f.relative = dir ds) {names : List Text}
    (hnames : ∀ n ∈ names, IsProper n) (p : Policy) (wanted : Option Nat) :
    (scan h c enter f names p wanted).GivesNames c := by
  induction names generalizing p wanted with
  | nil => exact givesNames_nil (by simp)
  | cons name names ih =>
    have hname : IsProper name := hnames name List.mem_cons_self
    have htail : ∀ n ∈ names, IsProper n := fun n hn => hnames n (List.mem_cons_of_mem name hn)
    have hframe : ∀ pending, (∀ n ∈ pending, IsProper n) → Frame.Proper { f with pending } :=
      fun pending hpending => ⟨⟨ds, hds, hf⟩, hpending⟩
    rw [scan]
    split
    · refine givesNames_nil ?_
      rintro _ ⟨⟩ g hg
      rw [List.mem_singleton.mp hg]
      exact hframe _ hnames
    · split
      · exact givesNames_nil (by simp)
      · exact ih htail p wanted
      · rename_i path hv
        refine givesNames_andThen ⟨fun hrelative r hr => ?_, by simp⟩ (by simp) (ih htail)
        rw [List.mem_singleton.mp hr, eq_of_visit_file hv, if_pos hrelative, hf]
        exact isRelativeName_dir_append hds hname
      · refine givesNames_andThen ?_ ?_ (ih htail)
        · rw [hf, ← dir_concat]
          exact henter _ _ _ _ _
            (List.forall_mem_append.mpr ⟨hds, List.forall_mem_singleton.mpr hname⟩)
        · intro g hg
          rw [List.mem_singleton.mp hg]
          exact hframe _ htail

/-- The names in a directory that is opened lead down. -/
theorem proper_of_openDirectory (hfs : h.files.Proper) {directory : Text} {above : List Nat}
    {relative : Text} {p' : Policy}
    (hopen : openDirectory h c directory relative above p = .ok (some (f, p'))) :
    f.relative = relative ∧ ∀ n ∈ f.pending, IsProper n := by
  obtain ⟨inodes, names, hcontents, -, rfl⟩ := exists_of_openDirectory hopen
  obtain ⟨l, rfl⟩ := FileSystem.exists_childrenAt_of_list (contents_eq_ok_some_iff.mp hcontents).2
  exact ⟨rfl, fun n hn => hfs.isProper_of_mem_childrenAt hn⟩

/-- **Entering a directory gives relative names.** -/
theorem enter_givesNames (hfs : h.files.Regular) (room : Nat) (directory : Text)
    (hds : ∀ d ∈ ds, IsProper d) (above : List Nat) (p : Policy) (wanted : Option Nat) :
    (enter h c room directory (dir ds) above p wanted).GivesNames c := by
  induction room generalizing directory ds above p wanted with
  | zero => exact givesNames_nil (by simp)
  | succ room ih =>
    rw [enter]
    split
    · exact givesNames_nil (by simp)
    · exact givesNames_nil (by simp)
    · rename_i f p' hopen
      obtain ⟨hf, hpending⟩ := proper_of_openDirectory hfs.proper hopen
      exact scan_givesNames (fun directory es above p w hes => ih directory hes above p w) hds hf
        hpending p' wanted

/-- **An iteration gives relative names**, wherever it goes on from. -/
theorem advance_givesNames (hfs : h.files.Regular) {w : Walk}
    (hw : ∀ frames, w = .inside frames → ∀ f ∈ frames, f.Proper) (root : Text) (p : Policy)
    (wanted : Option Nat) : (w.advance h c root p wanted).GivesNames c := by
  have henter : ∀ directory es above p w, (∀ e ∈ es, IsProper e) →
      (enter h c (roomFor h) directory (dir es) above p w).GivesNames c :=
    fun directory es above p w hes => enter_givesNames hfs (roomFor h) directory hes above p w
  cases w with
  | unstarted => exact henter root [] [] p wanted (fun e he => absurd he List.not_mem_nil)
  | inside frames =>
    have hframes := hw frames rfl
    clear hw
    rw [advance]
    induction frames generalizing p wanted with
    | nil => exact givesNames_nil (by simp)
    | cons f outer ih =>
      obtain ⟨⟨ds, hds, hf⟩, hpending⟩ := hframes f List.mem_cons_self
      have houter : ∀ g ∈ outer, g.Proper := fun g hg => hframes g (List.mem_cons_of_mem f hg)
      rw [resume]
      exact givesNames_andThen (scan_givesNames henter hds hf hpending p wanted) houter
        (fun p w => ih p w houter)

end Walk

/-- A filter gives relative names, where those are to be given, and leaves frames that it can go
on from. -/
theorem Filter.advance_givesNames {h : Host} {f : Filter} {w : Walk} (hfs : h.files.Regular)
    (hw : ∀ frames, w = .inside frames → ∀ g ∈ frames, g.Proper) (wanted : Option Nat) :
    (f.config.relative = true → ∀ r ∈ (f.advance h wanted w).2.found, IsRelativeName r) ∧
      ∀ frames, (f.advance h wanted w).2.walk = .inside frames → ∀ g ∈ frames, g.Proper := by
  have hq := Walk.advance_givesNames (c := f.config) hfs hw f.root f.policy wanted
  rw [advance]
  split
  · exact ⟨fun _ r hr => absurd hr List.not_mem_nil, hw⟩
  · simp only
    cases hhalt : (w.advance h f.config f.root f.policy wanted).halt with
    | finished | failed =>
      refine ⟨hq.found, ?_⟩
      rintro _ ⟨⟩ g hg
      cases hg
    | paused frames =>
      refine ⟨hq.found, ?_⟩
      rintro _ ⟨⟩
      exact hq.frames frames hhalt

/-! ## Sessions -/

namespace Session
variable {h : Host} {s : Session}

/-- A session all of whose iterations have given relative names, where those are to be given, and
can go on from their frames. -/
structure GivesNames (c : Config) (s : Session) : Prop where
  found : c.relative = true → ∀ i ∈ s.iterations, ∀ r ∈ i.found, IsRelativeName r
  frames : ∀ i ∈ s.iterations, ∀ frames, i.walk = .inside frames → ∀ f ∈ frames, f.Proper

/-- **No action gives anything but relative names.** -/
theorem GivesNames.step (hfs : h.files.Regular) (hs : s.GivesNames s.filter.config) (a : Action) :
    (s.step h a).GivesNames s.filter.config := by
  have hall : ∀ i ∈ (s.step h a).iterations,
      (s.filter.config.relative = true → ∀ r ∈ i.found, IsRelativeName r) ∧
        ∀ frames, i.walk = .inside frames → ∀ f ∈ frames, f.Proper := by
    refine forall_iterations_step (fun i hi => ⟨(hs.found · i hi), hs.frames i hi⟩)
      ⟨fun _ r hr => absurd hr List.not_mem_nil, fun frames hbegun => by cases hbegun⟩
      (fun i hi wanted => ?_) a
    obtain ⟨hfound, hframes⟩ := s.filter.advance_givesNames hfs hi.2 wanted
    refine ⟨fun hrelative r hr => ?_, hframes⟩
    rcases List.mem_append.mp hr with hr | hr
    · exact hi.1 hrelative r hr
    · exact hfound hrelative r hr
  exact ⟨fun hrelative i hi => (hall i hi).1 hrelative, fun i hi => (hall i hi).2⟩

/-- **No session gives anything but relative names.** -/
theorem GivesNames.run (hfs : h.files.Regular) (hs : s.GivesNames s.filter.config)
    (actions : List Action) : (s.run h actions).GivesNames s.filter.config := by
  induction actions generalizing s with
  | nil => exact hs
  | cons a actions ih =>
    have hconfig : (s.step h a).filter.config = s.filter.config := by
      rw [step_filter_eq a]
    have hrun := ih (s := s.step h a) (hconfig ▸ hs.step hfs a)
    rw [hconfig] at hrun
    exact hrun

end Session

namespace Filter
variable {h : Host} {plan : FilterPlan} {f : Filter}

/-- **A relative name and the full path ask the same question.**  Whatever has been done with a
filter, and whatever errors the file system may raise: a question about a relative name is answered
as that about the root followed by the name, with the same error if there is one, and leaves the
same filter behind.  This holds of names that do not begin with `~`; one that does asks for the
path with the home directory written out.  What iterations find are relative names, if it is given
relative to the root. -/
theorem ask_relative_eq_ask_full (hcwd : h.cwd.head? = some '/') (hfs : h.files.Regular)
    (hf : create h plan = .ok f) (actions : List Action) :
    let s := Session.run h ⟨f, [], []⟩ actions
    (∀ q : Query, IsRelativeName q.path → q.path.head? ≠ some '~' →
      s.filter.ask h q = s.filter.ask h { q with path := f.root ++ q.path }) ∧
    (∀ q : Query, IsRelativeName q.path → (h.expand q.path).head? = some '/' →
      s.filter.ask h q = s.filter.ask h { q with path := h.expand q.path }) ∧
    (f.config.relative = true → ∀ i ∈ s.iterations, ∀ r ∈ i.found, IsRelativeName r) := by
  intro s
  have h₀ : f.Fresh := fresh_of_create hcwd hf
  have hresolver : s.filter.resolver = f.resolver := by
    rw [Session.run_filter_eq actions]
  have hbegin : Session.GivesNames f.config ⟨f, [], []⟩ :=
    ⟨fun _ i hi => absurd hi List.not_mem_nil, fun i hi => absurd hi List.not_mem_nil⟩
  have hrun := Session.GivesNames.run (s := ⟨f, [], []⟩) hfs hbegin actions
  refine ⟨fun q hq hhome => ?_, fun q hq hhome => ?_, hrun.found⟩
  · apply ask_eq_of_relative?
    rw [hresolver, h₀.root_eq]
    exact Resolver.relative?_of_isRelativeName h₀.normal hq hhome
  · apply ask_eq_of_relative?
    exact Resolver.relative?_expand hq hhome

/-- A root with a file in a directory `d`, and one in a directory that is called `~`. -/
def tildeHost : Host :=
  { files := .ofEntries
      [("/r/d/e".toList, { kind := .file [] }), ("/r/~/x".toList, { kind := .file [] })]
    cwd := "/r".toList
    homes := ⟨some "/home/u".toList, []⟩
    configHome := none }

/-- What is asked about `d/e` and about `/r/d/e` is the same, and both are allowed; what is asked
about `~/x` is what is asked about `/home/u/x`. -/
theorem ask_relative_of_tildeHost :
    ∃ f, create tildeHost { options := { relative := true } } = .ok f ∧
    let s := Session.run tildeHost ⟨f, [], []⟩ [.start, .advance 0 (some 1)]
    (s.filter.ask tildeHost { path := "d/e".toList }).2 = .ok true ∧
      s.filter.ask tildeHost { path := "d/e".toList } =
        s.filter.ask tildeHost { path := "/r/d/e".toList } ∧
      s.filter.ask tildeHost { path := "~/x".toList } =
        s.filter.ask tildeHost { path := "/home/u/x".toList } ∧
      ∀ i ∈ s.iterations, ∀ r ∈ i.found, IsRelativeName r := by
  have hs : tildeHost.Sound := Host.sound_of_ofEntries rfl rfl (by decide)
  let actions : List Action := [.start, .advance 0 (some 1)]
  obtain ⟨f, hf, hfacts⟩ : ∃ f, create tildeHost { options := { relative := true } } = .ok f ∧
      decide (f.config.relative = true ∧ f.root = "/r/".toList ∧
        ((Session.run tildeHost ⟨f, [], []⟩ actions).filter.ask tildeHost
          { path := "d/e".toList }).2 = .ok true) = true :=
    exists_eq_ok_of_any (by decide +kernel)
  obtain ⟨hrelative, hroot, hallowed⟩ := of_decide_eq_true hfacts
  obtain ⟨hfull, hhome, hfound⟩ := ask_relative_eq_ask_full hs.cwd hs.regular hf actions
  have hin : IsRelativeName "d/e".toList := ⟨["d".toList, "e".toList], by decide, by decide, rfl⟩
  have htilde : IsRelativeName "~/x".toList := ⟨["~".toList, "x".toList], by decide, by decide, rfl⟩
  refine ⟨f, hf, hallowed, ?_, ?_, hfound hrelative⟩
  · have hsame := hfull { path := "d/e".toList } hin (by decide)
    rw [hroot] at hsame
    exact hsame
  · exact hhome { path := "~/x".toList } htilde (by decide)

/-- **A relative name that begins with `~` is denied**, though an enumeration has given it, and the
file is allowed under its full path. -/
theorem relative_name_in_home_denied :
    ∃ f, create tildeHost { options := { relative := true } } = .ok f ∧ f.root = "/r/".toList ∧
      IsRelativeName "~/x".toList ∧ "~/x".toList ∈ (f.enumerate tildeHost).2.found ∧
      (f.ask tildeHost { path := "~/x".toList }).2 = .ok false ∧
      (f.ask tildeHost { path := f.root ++ "~/x".toList }).2 = .ok true := by
  obtain ⟨f, hf, hfacts⟩ : ∃ f, create tildeHost { options := { relative := true } } = .ok f ∧
      decide (f.root = "/r/".toList ∧ "~/x".toList ∈ (f.enumerate tildeHost).2.found ∧
        (f.ask tildeHost { path := "~/x".toList }).2 = .ok false ∧
        (f.ask tildeHost { path := f.root ++ "~/x".toList }).2 = .ok true) = true :=
    exists_eq_ok_of_any (by decide +kernel)
  obtain ⟨hroot, hfound, hdenied, hallowed⟩ := of_decide_eq_true hfacts
  exact ⟨f, hf, hroot, ⟨["~".toList, "x".toList], by decide, by decide, rfl⟩, hfound, hdenied,
    hallowed⟩

end Filter

end PathFilter
