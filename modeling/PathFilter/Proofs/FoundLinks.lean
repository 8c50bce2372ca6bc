import PathFilter.Proofs.Agreement
import PathFilter.Proofs.History

/-! # Links among the files that are found

Where links are not followed, an enumeration takes a link for a file and finds it under its own
name, whatever it leads to.  A question about the same path looks at what the link leads to first,
and denies a path that leads to nothing.

* **A path that has been found is allowed exactly if it leads to something**; one that does not is
  a link, and links are not followed (`Filter.ask_eq_present_of_found`).
* So a link that leads nowhere is found, and is not allowed
  (`Filter.dangling_link_found_and_denied`).
-/

namespace PathFilter
open PathFilter.Path

namespace Filter
variable {h : Host} {plan : FilterPlan} {f : Filter} {ds : List Text} {name path : Text}

/-- A path below the root is related to the root by the names that lead down to it. -/
theorem Fresh.relative?_root_append (hf : f.Fresh) (homes : Homes) (hds : ∀ d ∈ ds, IsProper d)
    (hname : IsProper name) :
    f.resolver.relative? homes (f.root ++ (dir ds ++ name)) = .ok (some (dir ds ++ name)) := by
  have hcs : ∀ c ∈ ds ++ [name], IsProper c :=
    List.forall_mem_append.mpr ⟨hds, List.forall_mem_singleton.mpr hname⟩
  have hrelative := f.resolver.relative?_dirText_append homes hf.normal (by simp) hcs
  rwa [joinWith_concat, ← hf.root_eq] at hrelative

/-- What is no directory and is not present is a link that is not followed. -/
theorem Fresh.exists_link_of_absent (hs : h.Sound) (hf : f.Fresh) (hds : ∀ d ∈ ds, IsProper d)
    (hname : IsProper name)
    (hfile : h.isDirectory f.config.followLinks (f.root ++ (dir ds ++ name)) = .ok false)
    (habsent : h.present (f.root ++ (dir ds ++ name)) = false) :
    f.config.followLinks = false ∧
      ∃ n target, h.stat false (f.root ++ (dir ds ++ name)) = .ok n ∧ n.kind = .link target := by
  obtain ⟨n, hstat, -⟩ := map_eq_ok_iff.mp hfile
  -- what can be looked at with links followed is present
  have hfails : ∀ n, h.stat true (f.root ++ (dir ds ++ name)) ≠ .ok n := by
    intro n hn
    rw [Host.present, hn] at habsent
    cases habsent
  cases hfollow : f.config.followLinks with
  | true =>
    rw [hfollow] at hstat
    exact absurd hstat (hfails n)
  | false =>
    rw [hfollow] at hstat
    refine ⟨rfl, n, ?_⟩
    by_contra hkind
    have hkind : ∀ target, n.kind ≠ .link target := fun target ht => hkind ⟨target, hstat, ht⟩
    have hin : (f.resolver.base.into ds).IsNormal := hf.normal.into hds
    have hroot : f.root ++ (dir ds ++ name) = (f.resolver.base.into ds).dirText ++ name := by
      rw [Pathname.dirText_into, hf.root_eq, List.append_assoc]
    rw [hroot] at hstat hfails
    have hhead := hin.head?_dirText_append name
    obtain ⟨l, hnode⟩ := (hs.stat_eq_ok_iff hhead).mp hstat
    exact hfails n ((hs.stat_eq_ok_iff hhead).mpr
      ⟨l, Host.node_true_of_node_false hin hname hkind hnode⟩)

/-- **A path that has been found is allowed exactly if it leads to something.**  Let found paths be
given in full.  Whatever has been done with a filter, and whichever of its iterations has found a
path, the path is allowed exactly if it is present; and if it is not, then it is a link, and links
are not followed. -/
theorem ask_eq_present_of_found (hs : h.Sound) (hf : create h plan = .ok f)
    (habsolute : f.config.relative = false) (actions : List Action) :
    let s := Session.run h ⟨f, [], []⟩ actions
    ∀ i ∈ s.iterations, ∀ path ∈ i.found,
      (s.filter.ask h { path }).2 = .ok (h.present path) ∧
        (h.present path = false → f.config.followLinks = false ∧
          ∃ n target, h.stat false path = .ok n ∧ n.kind = .link target) := by
  intro s i hi path hpath
  have h₀ : f.Fresh := fresh_of_create hs.cwd hf
  have hrun : Session.Faithful h f s := Session.faithful_run hs hf actions
  obtain ⟨rest, -, hall⟩ := (hrun.iterations i hi).found
  have hmem : path ∈ f.allFiles h := hall ▸ List.mem_append_left rest hpath
  obtain ⟨ds, name, hds, hname, rfl, hfile, hallows⟩ := h₀.exists_of_mem_allFiles hs habsolute hmem
  refine ⟨?_, h₀.exists_link_of_absent hs hds hname hfile⟩
  rw [(hrun.coherent.ask_eq hs h₀ _).1]
  have hprobe : f.probe h (f.root ++ (dir ds ++ name)) { path := f.root ++ (dir ds ++ name) } =
      .ok (false, none) := by
    rw [probe]
    simp only [hfile]
  obtain ⟨read, hread⟩ := Host.exists_firstLine_eq hs.mild (f.root ++ (dir ds ++ name))
  obtain ⟨a, hask, ha⟩ := h₀.exists_ask_eq hs hds hname
    (h₀.relative?_root_append h.homes hds hname) hprobe hread
  rw [hask]
  congr 1
  rw [Bool.eq_iff_iff, ha]
  constructor
  · exact fun hall => hall.2.1
  · exact fun hpresent => ⟨fun hdir => absurd hdir Bool.false_ne_true, hpresent, hallows read hread⟩

/-- A directory with a file, and a link that leads nowhere. -/
def danglingHost : Host :=
  { files := .ofEntries
      [("/r/a".toList, { kind := .file [] }), ("/r/x".toList, { kind := .link "nowhere".toList })]
    cwd := "/r".toList
    homes := ⟨none, []⟩
    configHome := none }

/-- Both are found; the file is allowed, and the link is allowed exactly if it is present. -/
theorem ask_eq_present_of_dangling_link : ∃ f, create danglingHost {} = .ok f ∧
    let s := Session.run danglingHost ⟨f, [], []⟩ [.start, .advance 0 none]
    (s.filter.ask danglingHost { path := "/r/a".toList }).2 = .ok true ∧
      (s.filter.ask danglingHost { path := "/r/x".toList }).2 =
        .ok (danglingHost.present "/r/x".toList) := by
  have hs : danglingHost.Sound := Host.sound_of_ofEntries rfl rfl (by decide)
  obtain ⟨f, hf, hfacts⟩ : ∃ f, create danglingHost {} = .ok f ∧
      decide (f.config.relative = false ∧
        (Session.run danglingHost ⟨f, [], []⟩ [.start, .advance 0 none]).iterations.map (·.found) =
          [["/r/a".toList, "/r/x".toList]]) = true :=
    exists_eq_ok_of_any (by decide +kernel)
  obtain ⟨habsolute, hfound⟩ := of_decide_eq_true hfacts
  have hall := ask_eq_present_of_found hs hf habsolute [.start, .advance 0 none]
  obtain ⟨i, hi, hpaths⟩ := List.mem_map.mp (hfound ▸ List.mem_singleton_self _)
  refine ⟨f, hf, (hall i hi _ (hpaths ▸ by simp)).1.trans ?_, (hall i hi _ (hpaths ▸ by simp)).1⟩
  decide +kernel

/-- **A link that leads nowhere is found, and is not allowed.** -/
theorem dangling_link_found_and_denied : danglingHost.Sound ∧
    ∃ f, create danglingHost {} = .ok f ∧ f.config.relative = false ∧
      "/r/x".toList ∈ (f.enumerate danglingHost).2.found ∧
      ((f.enumerate danglingHost).1.ask danglingHost { path := "/r/x".toList }).2 = .ok false := by
  refine ⟨Host.sound_of_ofEntries rfl rfl (by decide), ?_⟩
  obtain ⟨f, hf, hfacts⟩ : ∃ f, create danglingHost {} = .ok f ∧
      decide (f.config.relative = false ∧ "/r/x".toList ∈ (f.enumerate danglingHost).2.found ∧
        ((f.enumerate danglingHost).1.ask danglingHost { path := "/r/x".toList }).2 = .ok false)
          = true :=
    exists_eq_ok_of_any (by decide +kernel)
  exact ⟨f, hf, of_decide_eq_true hfacts⟩

end Filter
end PathFilter
