import PathFilter.Proofs.Creation
import PathFilter.Proofs.History

/-! # How far a nested ignore file reaches

**The ignore file in a directory below the root says nothing of what lies outside of that
directory** (`Filter.agree_outside`).  Let two hosts without links differ in the text of this file
only, and let filters be made on them by the same plan, which does not use the file itself
(`Filter.MadeWithout`).  Whatever has then been done with both, they answer alike about paths that
do not lie below the directory, and what they find is the same but for files below it.

Answers and files are settled by the filter as it was made (`Session.faithful_run`), so it is
enough to compare what it says on either host.

* The rules on the way down to a directory are the same on both, unless the way goes through the
  directory of the file (`Policy.along_eq_of_alikeBut`).
* So each question outside of it is answered alike (`Fresh.ask_eq_of_alikeBut`), and each name
  outside of it is visited alike (`visitAt_eq_of_alikeBut`).
* What is found below a directory begins with the path of the directory
  (`prefix_of_mem_filesBelow`), so the lists differ in files below it only
  (`filter_filesBelow_eq`).
-/

namespace PathFilter
open PathFilter.Path FileSystem

variable {h h' : Host} {b : Pathname} {ds es : List Text} {name : Text}

/-! ## What is found below a directory -/

namespace Walk
variable {c : Config} {p₀ : Policy} {room : Nat} {above : List Nat}

/-- What is written in front of the names that are found in a directory. -/
def givenPath (c : Config) (b : Pathname) (es : List Text) : Text :=
  if c.relative then dir es else pathOf b es

theorem givenPath_mono (hin : ds <+: es) : givenPath c b ds <+: givenPath c b es := by
  obtain ⟨bs, rfl⟩ := hin
  rw [givenPath, givenPath, pathOf, pathOf, dir_append]
  split
  · exact List.prefix_append _ _
  · rw [← List.append_assoc]
    exact List.prefix_append _ _

/-- **What is found below a directory begins with the path of the directory.** -/
theorem prefix_of_mem_filesBelow {t : Text} (ht : t ∈ filesBelow h c b p₀ room es above) :
    givenPath c b es <+: t := by
  induction room generalizing es above with
  | zero => exact absurd ht List.not_mem_nil
  | succ room ih =>
    rw [filesBelow] at ht
    split at ht
    · obtain ⟨name, -, ht⟩ := List.mem_flatMap.mp ht
      unfold filesOf at ht
      split at ht
      · rename_i path hv
        rw [List.mem_singleton.mp ht, eq_of_visit_file hv, givenPath, frameAt]
        split
        · exact List.prefix_append _ _
        · exact List.prefix_append _ _
      · exact (givenPath_mono (List.prefix_append es [name])).trans (ih ht)
      · exact absurd ht List.not_mem_nil
      · exact absurd ht List.not_mem_nil
    · exact absurd ht List.not_mem_nil
    · exact absurd ht List.not_mem_nil

/-- Nothing of what is found below a directory lies outside of it. -/
theorem filter_filesBelow_eq_nil (hin : ds <+: es) :
    (filesBelow h c b p₀ room es above).filter
      (fun t => !(givenPath c b ds).isPrefixOf t) = [] := by
  refine List.filter_eq_nil_iff.mpr (fun t ht => ?_)
  have hprefix := (givenPath_mono hin).trans (prefix_of_mem_filesBelow ht)
  rw [List.isPrefixOf_iff_prefix.mpr hprefix]
  exact Bool.false_ne_true

end Walk

/-! ## Rules elsewhere -/

section
variable (ha : h.AlikeBut (b.components ++ ds ++ [ignoreFileName]) h')
  (hlinks : h.files.WithoutLinks) (hb : b.IsNormal)
include ha hlinks hb

/-- A file in another directory is read alike. -/
theorem Host.AlikeBut.readOr_eq_of_ne (hes : ∀ e ∈ es, IsProper e) (hname : IsProper name)
    (hne : es ≠ ds) {α : Type} (absent : α) (use : Text → α) :
    h.readOr (b.dirText ++ dir es ++ name) absent use =
      h'.readOr (b.dirText ++ dir es ++ name) absent use := by
  have hnormal := hb.into hes
  rw [← Pathname.dirText_into]
  refine ha.readOr_eq (fun n bytes hn _ => hne ?_)
  rw [Host.fromCwd_dirText_append hnormal] at hn
  have hplace : b.components ++ ds ++ [ignoreFileName] = b.components ++ es ++ [name] :=
    Host.location_of_node hlinks hnormal hname hn
  obtain ⟨hplace, -⟩ := List.append_inj' hplace rfl
  exact (List.append_cancel_left hplace).symm

/-- The rules of another ignore file are the same. -/
theorem Hierarchy.nestedRules_eq_of_alikeBut {g : Hierarchy} (hg : g.root = b.dirText)
    (hes : ∀ e ∈ es, IsProper e) (hne : es ≠ ds) :
    g.nestedRules h (dir es) = g.nestedRules h' (dir es) := by
  have hlines : h.readLines (b.dirText ++ dir es ++ ignoreFileName) =
      h'.readLines (b.dirText ++ dir es ++ ignoreFileName) :=
    ha.readOr_eq_of_ne hlinks hb hes isProper_ignoreFileName hne [] Text.lines
  rw [nestedRules, nestedRules, rulesIn, rulesIn, ignoreFile_dir hb hg hes,
    ignoreFile_dir hb hg hes, Pathname.dirText_into, hlines]

/-- **The rules on the way down to a directory are the same, unless it leads through the one that
the file is in.** -/
theorem Policy.along_eq_of_alikeBut {p : Policy} (hroot : p.RootedAt b)
    (hes : ∀ e ∈ es, IsProper e) (hout : ¬ ds <+: es) : p.along h es = p.along h' es := by
  rw [along, along]
  cases hg : p.hierarchy with
  | none => rw [Option.map_none, Option.map_none]
  | some g =>
    have hloads : g.along h es = g.along h' es := by
      rw [Hierarchy.along, Hierarchy.along]
      congr 1
      refine List.map_congr_left (fun d hd => ?_)
      obtain ⟨as, -, has, rfl⟩ := mem_descend_iff.mp hd
      rw [List.nil_append, Hierarchy.nestedRules_eq_of_alikeBut ha hlinks hb
        (hroot.hierarchy g hg) (fun a h => hes a (has.subset h)) (fun e => hout (e ▸ has))]
    rw [Option.map_some, Option.map_some, hloads]

/-- The directories on the way down are allowed alike. -/
theorem Policy.allowsWay_iff_of_alikeBut {p : Policy} (hroot : p.RootedAt b)
    (hes : ∀ e ∈ es, IsProper e) (hout : ¬ ds <+: es) :
    p.AllowsWay h b es ↔ p.AllowsWay h' b es := by
  refine forall₃_congr (fun as a has => ?_)
  have has' : as <+: es := (List.prefix_append as [a]).trans has
  rw [along_eq_of_alikeBut ha hlinks hb hroot (fun c hc => hes c (has'.subset hc))
    (fun hin => hout (hin.trans has'))]

/-! ## Visits elsewhere -/

namespace Walk
variable {c : Config} {p₀ : Policy} (hroot : p₀.RootedAt b)
include hroot

/-- **A name in a directory elsewhere is visited alike.** -/
theorem visitAt_eq_of_alikeBut (hes : ∀ e ∈ es, IsProper e) (hname : IsProper name)
    (hout : ¬ ds <+: es) : visitAt h c b p₀ es name = visitAt h' c b p₀ es name := by
  have halong := Policy.along_eq_of_alikeBut ha hlinks hb hroot hes hout
  have hline : h.firstLine (pathOf b es ++ name) = h'.firstLine (pathOf b es ++ name) :=
    ha.readOr_eq_of_ne hlinks hb hes hname (fun e => hout (e ▸ List.prefix_rfl)) _ _
  have hdir : h.isDirectory c.followLinks (pathOf b es ++ name) =
      h'.isDirectory c.followLinks (pathOf b es ++ name) :=
    ha.congr (F := fun h => h.isDirectory _ _) (fun _ => Host.isDirectory_outline)
  rw [visitAt, visitAt, frameAt, frameAt, halong, visit, visit]
  simp only [visitKind, hdir, hline]

/-- **What is found below a directory is the same, but for files below the one that the file is
in.** -/
theorem filter_filesBelow_eq (hfs : h.files.Regular) (hes : ∀ e ∈ es, IsProper e) (room : Nat)
    (above : List Nat) :
    (filesBelow h c b p₀ room es above).filter (fun t => !(givenPath c b ds).isPrefixOf t) =
      (filesBelow h' c b p₀ room es above).filter
        (fun t => !(givenPath c b ds).isPrefixOf t) := by
  induction room generalizing es above with
  | zero => rfl
  | succ room ih =>
    -- inside of the directory all is left out; elsewhere the names are visited alike
    by_cases hin : ds <+: es
    · rw [filter_filesBelow_eq_nil hin, filter_filesBelow_eq_nil hin]
    · have hmet : contents h c (pathOf b es) above = contents h' c (pathOf b es) above :=
        ha.congr (F := fun h => contents h c _ _) (fun _ => contents_outline)
      rw [filesBelow, filesBelow, ← hmet]
      cases hcontents : contents h c (pathOf b es) above with
      | error e => simp only
      | ok met =>
        cases met with
        | none => simp only
        | some met =>
          obtain ⟨inodes, names⟩ := met
          obtain ⟨l, rfl⟩ := exists_childrenAt_of_list (contents_eq_ok_some_iff.mp hcontents).2
          simp only [List.filter_flatMap]
          refine List.flatMap_congr (fun name hmem => ?_)
          have hname : IsProper name := hfs.isProper_of_mem_childrenAt hmem
          rw [← visitAt_eq_of_alikeBut ha hlinks hb hroot hes hname hin]
          cases visitAt h c b p₀ es name with
          | error e => simp only [filesOf]
          | ok v =>
            cases v with
            | pass => simp only [filesOf]
            | file path => simp only [filesOf]
            | directory =>
              exact ih (List.forall_mem_append.mpr ⟨hes, List.forall_mem_singleton.mpr hname⟩) _

end Walk
end

/-! ## Answers elsewhere -/

namespace Filter
variable {f : Filter} {plan : FilterPlan}

theorem probe_outline (h : Host) (f : Filter) (full : Text) (q : Query) :
    f.probe h.outline full q = f.probe h full q := by
  rw [probe, probe, Host.isDirectory_outline]

/-- What is decided about a path elsewhere. -/
theorem Fresh.decideAt_eq_of_alikeBut (hf : f.Fresh) (hs : h.Sound) (hs' : h'.Sound)
    (ha : h.AlikeBut (f.resolver.base.components ++ ds ++ [ignoreFileName]) h')
    (hlinks : h.files.WithoutLinks) (hes : ∀ e ∈ es, IsProper e) (hname : IsProper name)
    (hout : ¬ ds <+: es) (isDir : Bool) (q : Query) :
    (f.decideAt h (dir es ++ name) isDir q).2 = (f.decideAt h' (dir es ++ name) isDir q).2 := by
  have halong := Policy.along_eq_of_alikeBut ha hlinks hf.normal hf.rooted hes hout
  have hway := Policy.allowsWay_iff_of_alikeBut ha hlinks hf.normal hf.rooted hes hout
  have hline : h.firstLine (f.root ++ (dir es ++ name)) =
      h'.firstLine (f.root ++ (dir es ++ name)) := by
    rw [← List.append_assoc, hf.root_eq]
    exact ha.readOr_eq_of_ne hlinks hf.normal hes hname (fun e => hout (e ▸ List.prefix_rfl)) _ _
  obtain ⟨read, hread⟩ := Host.exists_firstLine_eq hs.mild (f.root ++ (dir es ++ name))
  obtain ⟨_, a, hdecide, -, -, hallows⟩ :=
    hf.coherent.decideAt hs hf hes hname isDir q hread
  obtain ⟨_, a', hdecide', -, -, hallows'⟩ :=
    hf.coherent.decideAt hs' hf hes hname isDir q (hline ▸ hread)
  rw [AllowsAt, lineAt, halong, hway] at hallows
  rw [hdecide, hdecide']
  exact congrArg Except.ok (Bool.eq_iff_iff.mpr (hallows.trans hallows'.symm))

/-- **A question about a path elsewhere is answered alike.** -/
theorem Fresh.ask_eq_of_alikeBut (hf : f.Fresh) (hs : h.Sound) (hs' : h'.Sound)
    (ha : h.AlikeBut (f.resolver.base.components ++ ds ++ [ignoreFileName]) h')
    (hlinks : h.files.WithoutLinks) (q : Query)
    (hout : ∀ rel, f.resolver.relative? h.homes q.path = .ok (some rel) → ¬ dir ds <+: rel) :
    (f.ask h q).2 = (f.ask h' q).2 := by
  have hhomes : h.homes = h'.homes := ha.congr (F := Host.homes) (fun _ => rfl)
  rw [ask, ask, ← hhomes]
  cases hrelative : f.resolver.relative? h.homes q.path with
  | error e => rfl
  | ok found =>
    cases found with
    | none => rfl
    | some rel =>
      obtain ⟨es, name, hes, hname, rfl⟩ := Resolver.exists_dir_of_relative? hf.normal hrelative
      have hin : ¬ ds <+: es := by
        rintro ⟨bs, rfl⟩
        refine hout _ hrelative ?_
        rw [dir_append, List.append_assoc]
        exact List.prefix_append _ _
      have hprobe : f.probe h (f.root ++ (dir es ++ name)) q =
          f.probe h' (f.root ++ (dir es ++ name)) q :=
        ha.congr (F := fun h => f.probe h _ q) (fun h => probe_outline h f _ q)
      have hpresent : h.present (f.root ++ (dir es ++ name)) =
          h'.present (f.root ++ (dir es ++ name)) :=
        ha.congr (F := fun h => h.present _) (fun _ => Host.present_outline)
      refine congrArg (Except.mapError Failure.access) ?_
      rw [decideBelow, decideBelow, ← hprobe, ← hpresent]
      cases f.probe h (f.root ++ (dir es ++ name)) q with
      | error e => rfl
      | ok found =>
        obtain ⟨isDir, present⟩ := found
        simp only
        split
        · rfl
        · split
          · rfl
          · exact hf.decideAt_eq_of_alikeBut hs hs' ha hlinks hes hname hin isDir q

/-! ## Files elsewhere -/

/-- The found paths that do not lie below a directory. -/
def outside (f : Filter) (ds : List Text) (found : List Text) : List Text :=
  found.filter fun path => !(if f.config.relative then dir ds else f.root ++ dir ds).isPrefixOf path

/-- **The files that are found are the same, but for files below the directory.** -/
theorem Fresh.outside_allFiles_eq (hf : f.Fresh) (hfs : h.files.Regular)
    (ha : h.AlikeBut (f.resolver.base.components ++ ds ++ [ignoreFileName]) h')
    (hlinks : h.files.WithoutLinks) :
    f.outside ds (f.allFiles h) = f.outside ds (f.allFiles h') := by
  have hroom : Walk.roomFor h = Walk.roomFor h' :=
    ha.congr (F := Walk.roomFor) Walk.roomFor_outline
  have hgiven : (if f.config.relative then dir ds else f.root ++ dir ds) =
      Walk.givenPath f.config f.resolver.base ds := by
    rw [hf.root_eq]
    rfl
  rw [outside, outside, hgiven, allFiles, allFiles, Walk.files, Walk.files, ← hroom]
  exact Walk.filter_filesBelow_eq ha hlinks hf.normal hf.rooted hfs
    (fun e he => absurd he List.not_mem_nil) _ _

/-- A filter can be made where a file cannot be opened, so it is made without that file: the file is
no source of patterns for it, nor is it the ignore file for all repositories or a configuration
file. -/
def MadeWithout (h : Host) (plan : FilterPlan) (file : Text) : Prop :=
  ∃ f, create (h.sealed (locationOf file)) plan = .ok f

/-- **A nested ignore file has no influence outside of its directory.**  Let two hosts without
links and injected errors differ in the text of the ignore file of a directory strictly below the
root only, and let filters be made on them by one plan that does not use this file otherwise.
Whatever has been done with both, they give the same answer to each question about a path that does
not lie strictly below the directory, and what they find is the same after all that lies below the
directory has been left out, in an enumeration that is begun now as in any that has ended. -/
theorem agree_outside (hs : h.Sound) (hs' : h'.Sound) (hlinks : h.files.WithoutLinks)
    {f' : Filter} (hf : create h plan = .ok f) (hf' : create h' plan = .ok f')
    (hds : ∀ d ∈ ds, IsProper d)
    (ha : h.AlikeBut (locationOf (f.root ++ dir ds ++ ignoreFileName)) h')
    (hunused : MadeWithout h plan (f.root ++ dir ds ++ ignoreFileName)) (actions : List Action) :
    let s := Session.run h ⟨f, [], []⟩ actions
    let s' := Session.run h' ⟨f', [], []⟩ actions
    (∀ q : Query,
      (∀ rel, f.resolver.relative? h.homes q.path = .ok (some rel) → ¬ dir ds <+: rel) →
        (s.filter.ask h q).2 = (s'.filter.ask h' q).2) ∧
      f.outside ds (s.filter.enumerate h).2.found = f.outside ds (s'.filter.enumerate h').2.found ∧
      ∀ i ∈ s.iterations, ∀ i' ∈ s'.iterations, i.walk = .inside [] → i'.walk = .inside [] →
        f.outside ds i.found = f.outside ds i'.found := by
  intro s s'
  have h₀ : f.Fresh := fresh_of_create hs.cwd hf
  obtain ⟨f₀, hf₀⟩ := hunused
  obtain rfl : f = f₀ := Except.ok.inj (hf.symm.trans (create_of_sealed (.refl _ h) hf₀))
  obtain rfl : f' = f := Except.ok.inj (hf'.symm.trans (create_of_sealed ha hf₀))
  rw [h₀.root_eq, ← Pathname.dirText_into,
    (h₀.normal.into hds).locationOf_dirText_append isProper_ignoreFileName.1] at ha
  have hrun : Session.Faithful h f' s := Session.faithful_run hs hf actions
  have hrun' : Session.Faithful h' f' s' := Session.faithful_run hs' hf' actions
  have hfiles := h₀.outside_allFiles_eq hs.regular ha hlinks
  refine ⟨fun q hout => ?_, ?_, fun i hi i' hi' hend hend' => ?_⟩
  · rw [(hrun.coherent.ask_eq hs h₀ q).1, (hrun'.coherent.ask_eq hs' h₀ q).1]
    exact h₀.ask_eq_of_alikeBut hs hs' ha hlinks q hout
  · rw [hrun.coherent.enumerate_eq hs h₀, hrun'.coherent.enumerate_eq hs' h₀]
    exact hfiles
  · rw [(hrun.iterations i hi).found_eq hend, (hrun'.iterations i' hi').found_eq hend']
    exact hfiles

/-- A root whose ignore file rules out `b`, with a directory whose own one has the given text. -/
def reachHost (text : List UInt8) : Host :=
  { files := .ofEntries
      [("/r/.gitignore".toList, { kind := .file [98] }), ("/r/a".toList, { kind := .file [] }),
       ("/r/d/.gitignore".toList, { kind := .file text }),
       ("/r/d/c".toList, { kind := .file [] }), ("/r/e/c".toList, { kind := .file [] })]
    cwd := "/r".toList
    homes := ⟨none, []⟩
    configHome := none }

/-- Whether the file in `d` rules out `c` or asks for first lines matters for `d/c`, but not for
`e/c` and for what is found outside of `d`. -/
theorem agree_outside_of_reachHost :
    let h := reachHost [99]
    let h' := reachHost [35, 33, 58, 115, 104]
    ∃ f, create h {} = .ok f ∧ create h' {} = .ok f ∧
      let actions : List Action := [.start, .advance 0 (some 2), .ask { path := "/r/d/c".toList }]
      let s := Session.run h ⟨f, [], []⟩ actions
      let s' := Session.run h' ⟨f, [], []⟩ actions
      (s.filter.ask h { path := "/r/d/c".toList }).2 ≠
          (s'.filter.ask h' { path := "/r/d/c".toList }).2 ∧
        (s.filter.ask h { path := "/r/e/c".toList }).2 =
          (s'.filter.ask h' { path := "/r/e/c".toList }).2 ∧
        f.outside ["d".toList] (s.filter.enumerate h).2.found =
          f.outside ["d".toList] (s'.filter.enumerate h').2.found := by
  intro h h'
  have hs : h.Sound := Host.sound_of_ofEntries rfl rfl (by decide)
  have hs' : h'.Sound := Host.sound_of_ofEntries rfl rfl (by decide)
  let l : Location := ["r".toList, "d".toList, ignoreFileName]
  have ha : h.AlikeBut l h' :=
    ⟨congrArg (fun nodes => { h with files := ⟨nodes, h.files.nextInode⟩ }) (by decide +kernel),
      by decide +kernel⟩
  let actions : List Action := [.start, .advance 0 (some 2), .ask { path := "/r/d/c".toList }]
  obtain ⟨f, hf₀, hfacts⟩ : ∃ f, create (h.sealed l) {} = .ok f ∧
      decide (f.root = "/r/".toList ∧
        f.resolver.relative? h.homes "/r/e/c".toList = .ok (some "e/c".toList) ∧
        ((Session.run h ⟨f, [], []⟩ actions).filter.ask h { path := "/r/d/c".toList }).2 ≠
          ((Session.run h' ⟨f, [], []⟩ actions).filter.ask h' { path := "/r/d/c".toList }).2)
        = true :=
    exists_eq_ok_of_any (by decide +kernel)
  obtain ⟨hroot, hrelative, hdiffer⟩ := of_decide_eq_true hfacts
  have hf : create h {} = .ok f := create_of_sealed (.refl l h) hf₀
  have hf' : create h' {} = .ok f := create_of_sealed ha hf₀
  have hplace : locationOf (f.root ++ dir ["d".toList] ++ ignoreFileName) = l := by
    rw [hroot]
    decide
  obtain ⟨hask, hfound, -⟩ := agree_outside hs hs' (by decide +kernel) hf hf' (by decide)
    (hplace ▸ ha) ⟨f, hplace ▸ hf₀⟩ actions
  refine ⟨f, hf, hf', hdiffer, hask { path := "/r/e/c".toList } ?_, hfound⟩
  intro rel hrel
  obtain rfl : "e/c".toList = rel := Option.some.inj (Except.ok.inj (hrelative.symm.trans hrel))
  decide

end Filter
end PathFilter
