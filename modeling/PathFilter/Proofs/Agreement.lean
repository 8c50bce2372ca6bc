import PathFilter.Proofs.Entries
import PathFilter.Proofs.FilterState
import PathFilter.Proofs.Reach

/-! # Enumerations and questions agree

An enumeration loads the ignore files on its way and judges each name alone, in the directory that
it is in; a question loads those of all directories above the path and judges each of these again.
**Both come to the same files**: if the file system has no links, or links are followed, a file
below the root is found exactly if it exists, the filter allows it, and no two of the directories
on the way down to it are the same one (`Filter.mem_enumerate_iff`).  The last condition is for
links that lead back up: an enumeration does not enter a directory that it is inside of.
-/

namespace PathFilter
open PathFilter.Path

namespace Filter
variable {h : Host} {plan : FilterPlan} {f : Filter} {ds : List Text} {name path : Text}

/-- **A file that is present is allowed if the rules that hold for it and for the directories
above it allow it.** -/
theorem Fresh.ask_eq_ok_true_iff (hs : h.Sound) (hf : f.Fresh) (hds : ∀ d ∈ ds, IsProper d)
    (hname : IsProper name) (hpath : path = f.root ++ (dir ds ++ name))
    (hrelative : f.resolver.relative? h.homes path = .ok (some (dir ds ++ name)))
    (hfile : h.isDirectory f.config.followLinks path = .ok false) (hpresent : h.present path = true)
    {read : Option Text} (hread : h.firstLine path = .ok read) :
    (f.ask h { path }).2 = .ok true ↔
      f.AllowsAt h ds name false (f.lineAt h ds name false { path } read) := by
  subst hpath
  have hprobe : f.probe h (f.root ++ (dir ds ++ name)) { path := f.root ++ (dir ds ++ name) } =
      .ok (false, none) := by
    rw [probe]
    simp only [hfile]
  obtain ⟨a, hask, ha⟩ := hf.exists_ask_eq hs hds hname hrelative hprobe hread
  rw [hask, Except.ok.injEq, ha]
  constructor
  · exact fun hall => hall.2.2
  · exact fun hall => ⟨fun hdir => absurd hdir Bool.false_ne_true, hpresent, hall⟩

/-- A file in a directory is found if the directory is entered and the file is allowed there. -/
theorem Fresh.mem_allFiles_iff (hs : h.Sound) (hf : f.Fresh) (habsolute : f.config.relative = false)
    (hds : ∀ d ∈ ds, IsProper d) (hname : IsProper name)
    (hpath : path = Walk.pathOf f.resolver.base ds ++ name) {names : List Text}
    (hlist : h.list (Walk.pathOf f.resolver.base ds) = .ok names) (hmem : name ∈ names) :
    path ∈ f.allFiles h ↔
      (∃ inodes, Walk.Entered h f.config f.resolver.base f.policy ds inodes) ∧
        Walk.visitAt h f.config f.resolver.base f.policy ds name = .ok (.file path) := by
  rw [allFiles, Walk.mem_files_iff hs hf.normal]
  constructor
  · rintro ⟨es, inodes, names', name', he, hlist', hname', hv⟩
    obtain ⟨line, hline⟩ :=
      Host.exists_firstLine_eq hs.mild (Walk.pathOf f.resolver.base es ++ name')
    obtain ⟨-, -, heq⟩ := (Walk.visitAt_eq_file_iff hs hline).mp hv
    rw [habsolute, if_neg Bool.false_ne_true, hpath] at heq
    obtain ⟨rfl, rfl⟩ := Walk.pathOf_append_inj hds (he.isProper hs hf.normal) hname
      (he.isProper_of_mem hs hf.normal hlist' hname') heq
    exact ⟨⟨inodes, he⟩, hv⟩
  · rintro ⟨⟨inodes, he⟩, hv⟩
    exact ⟨ds, inodes, names, name, he, hlist, hmem, hv⟩

/-- **What is found is no directory, and the rules that hold for it and for the directories above
it allow it.** -/
theorem Fresh.exists_of_mem_allFiles (hs : h.Sound) (hf : f.Fresh)
    (habsolute : f.config.relative = false) (hmem : path ∈ f.allFiles h) :
    ∃ ds name, (∀ d ∈ ds, IsProper d) ∧ IsProper name ∧ path = f.root ++ (dir ds ++ name) ∧
      h.isDirectory f.config.followLinks path = .ok false ∧
      ∀ read, h.firstLine path = .ok read →
        f.AllowsAt h ds name false (f.lineAt h ds name false { path } read) := by
  obtain ⟨ds, inodes, names, name, he, hlist, hname, hv⟩ :=
    (Walk.mem_files_iff hs hf.normal).mp hmem
  obtain ⟨line, hline⟩ := Host.exists_firstLine_eq hs.mild (Walk.pathOf f.resolver.base ds ++ name)
  obtain ⟨hfile, hallow, heq⟩ := (Walk.visitAt_eq_file_iff hs hline).mp hv
  rw [habsolute, if_neg Bool.false_ne_true] at heq
  rw [← heq] at hline hfile
  have hroot : path = f.root ++ (dir ds ++ name) := by
    rw [heq, Walk.pathOf, hf.root_eq, List.append_assoc]
  refine ⟨ds, name, he.isProper hs hf.normal, he.isProper_of_mem hs hf.normal hlist hname, hroot,
    hfile, fun read hread => ⟨he.allowsWay hs, ?_⟩⟩
  cases hread.symm.trans hline
  rw [lineAt, hf.root_eq]
  exact hallow

/-- What a filter finds in a directory is what it allows there. -/
theorem Fresh.mem_allFiles_iff_ask (hs : h.Sound) (hf : f.Fresh)
    (habsolute : f.config.relative = false)
    (hlinks : f.config.followLinks = true ∨ h.files.WithoutLinks)
    (hds : ∀ d ∈ ds, IsProper d) (hname : IsProper name)
    (hpath : path = Walk.pathOf f.resolver.base ds ++ name)
    (hrelative : f.resolver.relative? h.homes path = .ok (some (dir ds ++ name))) :
    path ∈ f.allFiles h ↔
      h.isDirectory f.config.followLinks path = .ok false ∧ (f.ask h { path }).2 = .ok true ∧
        ((Walk.wayTo f.resolver.base ds).map h.inodeAt).Nodup := by
  have hb := hf.normal
  by_cases hfile : h.isDirectory f.config.followLinks path = .ok false
  · -- what exists is in the list of its directory, and is present for questions, too
    have hhead : path.head? = some '/' := hpath ▸ Walk.head?_pathOf_append hb hds name
    obtain ⟨l, n, hnode, -⟩ := (hs.isDirectory_eq_ok_iff hhead).mp hfile
    rw [hpath, Walk.node_followLinks_eq_ok_iff hb hlinks hds hname] at hnode
    obtain ⟨names, hlist, hmem⟩ := Walk.exists_list_of_node hs hb hds hname hnode
    obtain ⟨l', n', hdir⟩ := Walk.exists_node_of_list hb hds hlist
    have hpresent : h.present path = true := by
      rw [Host.present, (hs.stat_eq_ok_iff hhead).mpr ⟨l, hpath ▸ hnode⟩]
      rfl
    obtain ⟨line, hline⟩ := Host.exists_firstLine_eq hs.mild path
    have hroot : path = f.root ++ (dir ds ++ name) := by
      rw [hpath, Walk.pathOf, hf.root_eq, List.append_assoc]
    have hfile' := hpath ▸ hfile
    have hline' := hpath ▸ hline
    rw [hf.mem_allFiles_iff hs habsolute hds hname hpath hlist hmem,
      Walk.exists_entered_iff hs hb hlinks hds hdir, Walk.visitAt_eq_file_iff hs hline',
      hf.ask_eq_ok_true_iff hs hds hname hroot hrelative hfile hpresent hline, AllowsAt, lineAt,
      hf.root_eq, habsolute, if_neg Bool.false_ne_true]
    constructor
    · rintro ⟨⟨hway, hnodup⟩, -, hallow, -⟩
      exact ⟨hfile, ⟨hway, hallow⟩, hnodup⟩
    · rintro ⟨-, ⟨hway, hallow⟩, hnodup⟩
      exact ⟨⟨hway, hnodup⟩, hfile', hallow, hpath⟩
  · refine iff_of_false (fun hmem => hfile ?_) (fun hall => hfile hall.1)
    obtain ⟨_, _, -, -, -, hnone, -⟩ := hf.exists_of_mem_allFiles hs habsolute hmem
    exact hnone

/-- **What an enumeration finds is what is allowed.**  Let the file system have no links, or links
be followed.  A path in normal form that lies strictly below the root is found exactly if it leads
to something that is no directory, the filter allows it, and the directories on the way down to it,
the root among them, are different ones. -/
theorem mem_enumerate_iff (hs : h.Sound) (hf : create h plan = .ok f)
    (habsolute : f.config.relative = false)
    (hlinks : f.config.followLinks = true ∨ h.files.WithoutLinks) {cs : List Text}
    (hpath : Path.normalize path = path)
    (hbelow : f.resolver.base.below? (.ofText path) = some cs) :
    path ∈ (f.enumerate h).2.found ↔
      h.isDirectory f.config.followLinks path = .ok false ∧ (f.ask h { path }).2 = .ok true ∧
        ((f.root :: descend f.root cs.dropLast).map h.inodeAt).Nodup := by
  have hfresh : f.Fresh := fresh_of_create hs.cwd hf
  have hb := hfresh.normal
  rw [hfresh.coherent.enumerate_eq hs hfresh]
  -- the path is a name in a directory below the root
  obtain ⟨hanchor, hne, hcomponents⟩ := Pathname.below?_eq_some_iff.mp hbelow
  obtain ⟨hnormal, htext⟩ := Pathname.isNormal_ofText hpath (hanchor ▸ hb.anchored)
  have hinto : Pathname.ofText path = f.resolver.base.into cs := by
    rw [Pathname.into, ← hanchor, ← hcomponents]
  have hcs : ∀ c ∈ cs, IsProper c := fun c hc =>
    hnormal.proper c (hcomponents ▸ List.mem_append_right _ hc)
  obtain ⟨ds, name, rfl⟩ := List.eq_nil_or_concat cs |>.resolve_left hne
  rw [List.concat_eq_append] at hbelow hne hinto hcs ⊢
  have hds : ∀ d ∈ ds, IsProper d := fun d hd => hcs d (List.mem_append_left _ hd)
  have hname : IsProper name := hcs name (by simp)
  have hpath' : path = Walk.pathOf f.resolver.base ds ++ name := by
    rw [← htext, hinto, Pathname.toText_into hb.anchored hne, joinWith_concat, Walk.pathOf,
      List.append_assoc]
  have hrelative : f.resolver.relative? h.homes path = .ok (some (dir ds ++ name)) := by
    rw [← joinWith_concat, ← Resolver.relative?_toText hnormal hbelow, htext]
  rw [List.dropLast_concat, hfresh.root_eq]
  exact hfresh.mem_allFiles_iff_ask hs habsolute hlinks hds hname hpath' hrelative

/-- A directory with an ignore file, a file that it rules out, and a link that leads back up. -/
def loopHost : Host :=
  { files := .ofEntries
      [("/r/.gitignore".toList, { kind := .file [98] }), ("/r/a".toList, { kind := .file [] }),
       ("/r/d/b".toList, { kind := .file [] }), ("/r/d/c".toList, { kind := .file [] }),
       ("/r/d/up".toList, { kind := .link "..".toList })]
    cwd := "/r".toList
    homes := ⟨none, []⟩
    configHome := none }

/-- The file `d/c` is found.  The file `d/b` is ruled out.  The path `d/up/a` is allowed, but it
leads through the root once more. -/
theorem mem_enumerate_through_loop :
    ∃ f, create loopHost { options := { followLinks := true } } = .ok f ∧
      "/r/d/c".toList ∈ (f.enumerate loopHost).2.found ∧
      "/r/d/b".toList ∉ (f.enumerate loopHost).2.found ∧
      (f.ask loopHost { path := "/r/d/up/a".toList }).2 = .ok true ∧
      "/r/d/up/a".toList ∉ (f.enumerate loopHost).2.found := by
  have hs : loopHost.Sound := Host.sound_of_ofEntries rfl rfl (by decide)
  obtain ⟨f, hf, hfacts⟩ : ∃ f, create loopHost { options := { followLinks := true } } = .ok f ∧
      decide (f.config.relative = false ∧ f.config.followLinks = true ∧
        f.resolver.base.below? (.ofText "/r/d/b".toList) = some ["d".toList, "b".toList] ∧
        f.resolver.base.below? (.ofText "/r/d/c".toList) = some ["d".toList, "c".toList] ∧
        f.resolver.base.below? (.ofText "/r/d/up/a".toList) =
          some ["d".toList, "up".toList, "a".toList] ∧
        loopHost.isDirectory true "/r/d/c".toList = .ok false ∧
        (f.ask loopHost { path := "/r/d/b".toList }).2 ≠ .ok true ∧
        (f.ask loopHost { path := "/r/d/c".toList }).2 = .ok true ∧
        (f.ask loopHost { path := "/r/d/up/a".toList }).2 = .ok true ∧
        ((f.root :: descend f.root ["d".toList]).map loopHost.inodeAt).Nodup ∧
        ¬ ((f.root :: descend f.root ["d".toList, "up".toList]).map loopHost.inodeAt).Nodup)
          = true :=
    exists_eq_ok_of_any (by decide +kernel)
  obtain ⟨habsolute, hlinks, hb, hc, ha, hfile, hdenied, hallowed, hallowed', hnodup, hloop⟩ :=
    of_decide_eq_true hfacts
  refine ⟨f, hf, ?_, ?_, hallowed', ?_⟩
  · exact (mem_enumerate_iff hs hf habsolute (.inl hlinks) (by decide) hc).mpr
      ⟨hlinks ▸ hfile, hallowed, hnodup⟩
  · exact fun hmem => hdenied
      ((mem_enumerate_iff hs hf habsolute (.inl hlinks) (by decide) hb).mp hmem).2.1
  · exact fun hmem => hloop
      ((mem_enumerate_iff hs hf habsolute (.inl hlinks) (by decide) ha).mp hmem).2.2

end Filter
end PathFilter
