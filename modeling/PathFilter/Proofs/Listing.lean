import Mathlib.Data.List.Nodup
import Mathlib.Data.List.Perm.Subperm
import PathFilter.Filter.Walk
import PathFilter.Proofs.PolicyLocality

/-! # The files that an enumeration finds

An enumeration goes through directories with a policy that changes on the way.  This module says,
without any such state, which files it finds below a directory (`Walk.filesBelow`): what is done
with a name there is what the policy that the filter began with does, with the ignore files of the
directories above the name loaded and no others (`Walk.visitAt`).

* A chain of directories that an enumeration is inside of holds no directory twice, since links
  that lead back are noticed by their inode numbers and the locations of real directories grow
  (`Trail.nodup`).  **So it is no longer than the number of directories**
  (`Trail.length_le`).
* Hence the room that is kept for chains never runs out, and the files found below a directory do
  not depend on it (`filesBelow_eq_of_room`).
* The state that is there when a name is visited does not matter (`visit_eq_visitAt`).
-/

namespace PathFilter
open PathFilter.Path FileSystem

/-- The root of a filter is its base directory, as paths below it begin. -/
theorem Filter.root_eq_dirText {f : Filter} (hb : f.resolver.base.IsNormal) :
    f.root = f.resolver.base.dirText := by
  rw [Filter.root, Resolver.root, hb.slashed_toText]

namespace Walk

/-- The path of the directory that names lead to from a base directory. -/
def pathOf (b : Pathname) (ds : List Text) : Text := b.dirText ++ dir ds

section
variable (h : Host) (c : Config) (b : Pathname) (p₀ : Policy)

/-- The frame for a directory as it matters for the names in it: whether a first line is needed is
told by the rules that hold there. -/
def frameAt (ds : List Text) : Frame :=
  ⟨pathOf b ds, dir ds, [], [], (p₀.along h ds).readsFirstLine⟩

/-- What is done with a name in a directory, by the rules that hold there. -/
def visitAt (ds : List Text) (name : Text) : Except Errno Visit :=
  visit h c (p₀.along h ds) (frameAt h b p₀ ds) name

/-- The files that are found for a name, given those below it if it bears a directory. -/
def filesOf (v : Except Errno Visit) (below : List Text) : List Text :=
  match v with
  | .ok (.file path) => [path]
  | .ok .directory => below
  | .ok .pass | .error _ => []

/-- The files that are found below a directory. -/
def filesBelow : Nat → List Text → List Nat → List Text
  | 0, _, _ => []
  | room + 1, ds, above =>
    match contents h c (pathOf b ds) above with
    | .ok (some (inodes, names)) => names.flatMap fun name =>
        filesOf (visitAt h c b p₀ ds name) (filesBelow room (ds ++ [name]) inodes)
    | .ok none | .error _ => []

/-- The directories on the way down from a base directory to another one, without that one, as an
enumeration has been inside of them, the last first; with the inode numbers that it holds. -/
inductive Trail : List Text → List Nat → List (Location × Node) → Prop where
  | root : Trail [] [] []
  | entry {ds : List Text} {name : Text} {above inodes : List Nat}
      {seen : List (Location × Node)} {l : Location} {n : Node} :
      Trail ds above seen → h.files.node true (pathOf b ds) = .ok (l, n) →
      chain h c (pathOf b ds) above = .ok (some inodes) → IsProper name →
      h.isDirectory c.followLinks (pathOf b ds ++ name) = .ok true →
        Trail (ds ++ [name]) inodes ((l, n) :: seen)

end

variable {h : Host} {c : Config} {b : Pathname} {p p₀ : Policy} {ds : List Text}
  {above inodes : List Nat} {seen : List (Location × Node)} {name : Text} {names : List Text}

/-! ## Chains of directories -/

theorem pathOf_eq (b : Pathname) (ds : List Text) :
    pathOf b ds = (b.into ds).dirText :=
  (Pathname.dirText_into b ds).symm

theorem pathOf_nil (b : Pathname) : pathOf b [] = b.dirText :=
  List.append_nil _

theorem pathOf_concat (b : Pathname) (ds : List Text) (name : Text) :
    pathOf b (ds ++ [name]) = pathOf b ds ++ name ++ ['/'] := by
  rw [pathOf, dir_concat, pathOf]
  simp

theorem head?_pathOf_append (hb : b.IsNormal) (hds : ∀ d ∈ ds, IsProper d) (t : Text) :
    (pathOf b ds ++ t).head? = some '/' := by
  rw [pathOf_eq]
  exact (hb.into hds).head?_dirText_append t

theorem head?_pathOf (hb : b.IsNormal) (hds : ∀ d ∈ ds, IsProper d) :
    (pathOf b ds).head? = some '/' := by
  have := head?_pathOf_append hb hds []
  rwa [List.append_nil] at this

/-- How the inode numbers of a chain grow: if links are followed, by a number that is new. -/
theorem chain_eq_ok_some_iff {directory : Text} : chain h c directory above = .ok (some inodes) ↔
    if c.followLinks then
      ∃ n, h.stat true directory = .ok n ∧ n.inode ∉ above ∧ inodes = n.inode :: above
    else inodes = above := by
  rw [chain]
  split
  · rw [map_eq_ok_iff]
    constructor
    · rintro ⟨n, hn, h⟩
      by_cases hmem : n.inode ∈ above
      · rw [if_pos (List.contains_iff_mem.mpr hmem)] at h
        cases h
      · rw [if_neg (fun e => hmem (List.contains_iff_mem.mp e))] at h
        exact ⟨n, hn, hmem, (Option.some.inj h).symm⟩
    · rintro ⟨n, hn, hmem, rfl⟩
      exact ⟨n, hn, if_neg (fun e => hmem (List.contains_iff_mem.mp e))⟩
  · exact ⟨fun h => (Option.some.inj (Except.ok.inj h)).symm, fun h => h ▸ rfl⟩

/-- There are no more directories among nodes than the file system has, if none is there twice. -/
theorem length_le_directoryCount {fs : FileSystem} {seen : List (Location × Node)}
    (hnodup : seen.Nodup) (hseen : ∀ e ∈ seen, e ∈ fs.nodes ∧ e.2.kind = .directory) :
    seen.length ≤ fs.directoryCount := by
  have hsub : seen ⊆ fs.nodes.filter (fun e => e.2.kind = .directory) := by
    intro e he
    obtain ⟨hmem, hkind⟩ := hseen e he
    exact List.mem_filter.mpr ⟨hmem, decide_eq_true hkind⟩
  rw [directoryCount, List.countP_eq_length_filter]
  exact (hnodup.subperm hsub).length_le

namespace Trail
variable (ht : Trail h c b ds above seen)
include ht

theorem isProper : ∀ d ∈ ds, IsProper d := by
  induction ht with
  | root => exact fun d hd => absurd hd List.not_mem_nil
  | entry _ _ _ hname _ ih =>
    exact List.forall_mem_append.mpr ⟨ih, List.forall_mem_singleton.mpr hname⟩

theorem length_eq : seen.length = ds.length := by
  induction ht with
  | root => rfl
  | entry _ _ _ _ _ ih => rw [List.length_cons, ih, List.length_append, List.length_singleton]

/-- What an enumeration has been inside of are directories of the file system. -/
theorem mem_nodes (hb : b.IsNormal) :
    ∀ e ∈ seen, e ∈ h.files.nodes ∧ e.2.kind = .directory := by
  induction ht with
  | root => exact fun e he => absurd he List.not_mem_nil
  | entry ht hn _ _ _ ih =>
    intro e he
    rcases List.mem_cons.mp he with rfl | he
    · rw [pathOf_eq] at hn
      obtain ⟨hkind, hget, -⟩ := (Host.node_dirText_eq_ok_iff (hb.into ht.isProper)).mp hn
      exact ⟨mem_nodes_of_get? hget, hkind⟩
    · exact ih e he

/-- Where links are followed, the inode numbers that are held are those of the directories, and
no number is held twice. -/
theorem inodes_of_followLinks (hb : b.IsNormal) (hf : c.followLinks = true) :
    above = seen.map (·.2.inode) ∧ above.Nodup := by
  induction ht with
  | root => exact ⟨rfl, List.nodup_nil⟩
  | entry ht hn hchain _ _ ih =>
    rw [chain_eq_ok_some_iff, if_pos hf] at hchain
    obtain ⟨m, hm, hnew, rfl⟩ := hchain
    obtain ⟨l', hm⟩ := exists_node_of_stat hm
    rw [Host.fromCwd_of_head? (head?_pathOf hb ht.isProper)] at hm
    cases hn.symm.trans hm
    refine ⟨?_, List.nodup_cons.mpr ⟨hnew, ih.2⟩⟩
    rw [List.map_cons, ← ih.1]

/-- Where links are not followed, each directory lies deeper than those above it. -/
theorem length_lt_of_not_followLinks (hb : b.IsNormal) (hf : c.followLinks = false) :
    seen.Pairwise (fun e e' => e'.1.length < e.1.length) ∧
      ∀ l n, h.files.node true (pathOf b ds) = .ok (l, n) → ∀ e ∈ seen, e.1.length < l.length := by
  induction ht with
  | root => exact ⟨.nil, fun _ _ _ e he => absurd he List.not_mem_nil⟩
  | @entry ds name _ _ seen l n ht hn _ hname hdir ih =>
    refine ⟨List.pairwise_cons.mpr ⟨ih.2 l n hn, ih.1⟩, fun l' n' hn' e he => ?_⟩
    -- what bears the name is a directory of its own, so it lies in the one above it
    rw [pathOf_eq] at hn hdir
    rw [pathOf_eq, Pathname.into_append] at hn'
    rw [hf] at hdir
    obtain rfl := Host.location_of_isDirectory (hb.into ht.isProper) hname hdir hn hn'
    have hle : e.1.length ≤ l.length :=
      (List.mem_cons.mp he).elim (fun e => e ▸ Nat.le_refl _)
        (fun he => Nat.le_of_lt (ih.2 l n (by rwa [pathOf_eq]) e he))
    rw [List.length_append, List.length_singleton]
    exact Nat.lt_succ_of_le hle

/-- **No directory is on a chain twice.** -/
theorem nodup (hb : b.IsNormal) : seen.Nodup := by
  cases hf : c.followLinks with
  | true =>
    obtain ⟨rfl, hnodup⟩ := ht.inodes_of_followLinks hb hf
    exact hnodup.of_map _
  | false =>
    refine (ht.length_lt_of_not_followLinks hb hf).1.imp (fun hlt heq => ?_)
    rw [heq] at hlt
    exact Nat.lt_irrefl _ hlt

/-- **A chain is no longer than the number of directories.** -/
theorem length_le (hb : b.IsNormal) : ds.length ≤ h.files.directoryCount := by
  rw [← ht.length_eq]
  exact length_le_directoryCount (ht.nodup hb) (ht.mem_nodes hb)

end Trail

/-! ## Contents of directories -/

theorem orAbsent_eq_ok_some_iff {α : Type} {x : Except Errno α} {a : α} :
    orAbsent x = .ok (some a) ↔ x = .ok a := by
  cases x with
  | ok b =>
    constructor
    · intro h
      exact congrArg Except.ok (Option.some.inj (Except.ok.inj h))
    · rintro ⟨⟩
      rfl
  | error e =>
    rw [orAbsent]
    split <;> exact iff_of_false nofun nofun

/-- What an enumeration meets in a directory, unless it is not to be entered. -/
theorem contents_eq_ok_some_iff {directory : Text} :
    contents h c directory above = .ok (some (inodes, names)) ↔
      chain h c directory above = .ok (some inodes) ∧ h.list directory = .ok names := by
  rw [contents, bind_eq_ok_iff]
  constructor
  · rintro ⟨o, ho, hrest⟩
    cases o with
    | none => cases hrest
    | some is =>
      obtain ⟨ns, hns, heq⟩ := bind_eq_ok_iff.mp hrest
      cases heq
      exact ⟨ho, hns⟩
  · rintro ⟨hchain, hlist⟩
    refine ⟨some inodes, hchain, ?_⟩
    simp only [hlist]
    rfl

/-- A directory that is opened has been listed, and its ignore file has been loaded. -/
theorem exists_of_openDirectory {directory relative : Text} {f : Frame} {p' : Policy}
    (hopen : openDirectory h c directory relative above p = .ok (some (f, p'))) :
    ∃ inodes names, contents h c directory above = .ok (some (inodes, names)) ∧
      p.load h relative (some (names.contains ignoreFileName)) = .ok p' ∧
      f = ⟨directory, relative, names, inodes, p'.readsFirstLine⟩ := by
  obtain ⟨found, hfound, hopen⟩ := bind_eq_ok_iff.mp hopen
  cases hjoin : found.join with
  | none =>
    rw [hjoin] at hopen
    cases hopen
  | some met =>
    obtain ⟨inodes, names⟩ := met
    rw [hjoin] at hopen
    obtain ⟨p'', hload, hopen⟩ := bind_eq_ok_iff.mp hopen
    cases hopen
    rw [Option.join_eq_some_iff.mp hjoin] at hfound
    exact ⟨inodes, names, orAbsent_eq_ok_some_iff.mp hfound, hload, rfl⟩

/-- A directory fails to be entered only because it is absent. -/
theorem meansAbsent_of_contents (hm : h.files.Mild) {directory : Text} {e : Errno}
    (he : contents h c directory above = .error e) : e.meansAbsent = true := by
  rw [contents, bind_eq_error_iff] at he
  rcases he with he | ⟨o, -, he⟩
  · rw [chain] at he
    split at he
    · cases hn : h.stat true directory with
      | error e₁ =>
        rw [hn] at he
        cases he
        exact hm.meansAbsent_of_stat hn
      | ok n => rw [hn] at he; cases he
    · cases he
  · cases o with
    | none => cases he
    | some is =>
      rcases bind_eq_error_iff.mp he with he | ⟨ns, -, he⟩
      · exact hm.meansAbsent_of_list he
      · cases he

/-- A directory whose contents are met, at the end of a chain. -/
structure Opened (h : Host) (c : Config) (b : Pathname) (ds : List Text) (inodes : List Nat) :
    Prop where
  trail : ∃ above seen, Trail h c b ds above seen ∧
    chain h c (pathOf b ds) above = .ok (some inodes)
  found : ∃ l n, h.files.node true (pathOf b ds) = .ok (l, n)

/-- A directory that can be listed exists. -/
theorem exists_node_of_list (hb : b.IsNormal) (hds : ∀ d ∈ ds, IsProper d)
    (hlist : h.list (pathOf b ds) = .ok names) :
    ∃ l n, h.files.node true (pathOf b ds) = .ok (l, n) := by
  obtain ⟨l, n, hn, -⟩ := FileSystem.exists_node_of_list hlist
  rw [Host.fromCwd_of_head? (head?_pathOf hb hds)] at hn
  exact ⟨l, n, hn⟩

theorem Trail.opened (ht : Trail h c b ds above seen) (hb : b.IsNormal)
    (hcontents : contents h c (pathOf b ds) above = .ok (some (inodes, names))) :
    Opened h c b ds inodes := by
  obtain ⟨hchain, hlist⟩ := contents_eq_ok_some_iff.mp hcontents
  exact ⟨⟨above, seen, ht, hchain⟩, exists_node_of_list hb ht.isProper hlist⟩

/-- **Where a directory is at the end of a chain, there are more directories than lie above it.** -/
theorem Opened.length_lt (ho : Opened h c b ds inodes) (hb : b.IsNormal) :
    ds.length < h.files.directoryCount := by
  obtain ⟨⟨above, seen, ht, hchain⟩, l, n, hn⟩ := ho
  have hnew : (l, n) ∉ seen := by
    cases hf : c.followLinks with
    | true =>
      rw [chain_eq_ok_some_iff, if_pos hf] at hchain
      obtain ⟨m, hm, hnew, -⟩ := hchain
      obtain ⟨l', hm⟩ := exists_node_of_stat hm
      rw [Host.fromCwd_of_head? (head?_pathOf hb ht.isProper)] at hm
      cases hn.symm.trans hm
      rw [(ht.inodes_of_followLinks hb hf).1] at hnew
      exact fun hmem => hnew (List.mem_map_of_mem hmem)
    | false =>
      exact fun hmem =>
        Nat.lt_irrefl _ ((ht.length_lt_of_not_followLinks hb hf).2 l n hn (l, n) hmem)
  rw [← ht.length_eq]
  show ((l, n) :: seen).length ≤ h.files.directoryCount
  refine length_le_directoryCount (List.nodup_cons.mpr ⟨hnew, ht.nodup hb⟩) fun e he => ?_
  rcases List.mem_cons.mp he with rfl | he
  · rw [pathOf_eq] at hn
    obtain ⟨hkind, hget, -⟩ := (Host.node_dirText_eq_ok_iff (hb.into ht.isProper)).mp hn
    exact ⟨mem_nodes_of_get? hget, hkind⟩
  · exact ht.mem_nodes hb e he

/-- A chain goes on with a directory in the one it ends at. -/
theorem Opened.entry (ho : Opened h c b ds inodes) (hname : IsProper name)
    (hdir : h.isDirectory c.followLinks (pathOf b ds ++ name) = .ok true) :
    ∃ seen, Trail h c b (ds ++ [name]) inodes seen := by
  obtain ⟨⟨_, _, ht, hchain⟩, l, n, hn⟩ := ho
  exact ⟨_, .entry ht hn hchain hname hdir⟩

/-- The names in a directory lead down. -/
theorem isProper_of_mem_contents (hfs : h.files.Proper)
    (hcontents : contents h c (pathOf b ds) above = .ok (some (inodes, names)))
    (hname : name ∈ names) : IsProper name := by
  obtain ⟨-, hlist⟩ := contents_eq_ok_some_iff.mp hcontents
  obtain ⟨l, rfl⟩ := exists_childrenAt_of_list hlist
  exact hfs.isProper_of_mem_childrenAt hname

/-! ## Visits -/

/-- What is done with a name in a frame, whichever way its first line is come by. -/
theorem visitKind_eq_map {f : Frame} {isDir : Bool} :
    visitKind h c p f name isDir =
      (if f.readsFirstLine && mayBeScript isDir name then h.firstLine (f.directory ++ name)
        else .ok none).map fun read =>
        if p.allowsAlone ⟨f.directory ++ name, isDir, read⟩ then
          if isDir then .directory
          else .file (if c.relative then f.relative ++ name else f.directory ++ name)
        else .pass := by
  have hdone : ∀ read : Option Text,
      (if !p.allowsAlone ⟨f.directory ++ name, isDir, read⟩ then pure .pass
        else if isDir then pure .directory
        else pure (.file (if c.relative then f.relative ++ name else f.directory ++ name)) :
        Except Errno Visit) =
      .ok (if p.allowsAlone ⟨f.directory ++ name, isDir, read⟩ then
        if isDir then .directory
        else .file (if c.relative then f.relative ++ name else f.directory ++ name)
      else .pass) := by
    intro read
    cases p.allowsAlone ⟨f.directory ++ name, isDir, read⟩ <;> cases isDir <;> rfl
  rw [visitKind]
  split
  · cases h.firstLine (f.directory ++ name) with
    | error e => rfl
    | ok read => exact hdone read
  · exact hdone none

/-- What is done with a name in a frame, on a sound host. -/
theorem visitKind_eq {f : Frame} {isDir : Bool} {line : Option Text}
    (hline : h.firstLine (f.directory ++ name) = .ok line) :
    visitKind h c p f name isDir = .ok
      (if p.allowsAlone ⟨f.directory ++ name, isDir,
          if f.readsFirstLine && mayBeScript isDir name then line else none⟩ then
        if isDir then .directory
        else .file (if c.relative then f.relative ++ name else f.directory ++ name)
      else .pass) := by
  rw [visitKind_eq_map, hline]
  cases f.readsFirstLine && mayBeScript isDir name <;> rfl

theorem visit_of_isDirectory {f : Frame} {isDir : Bool}
    (hdir : h.isDirectory c.followLinks (f.directory ++ name) = .ok isDir) :
    visit h c p f name = visitKind h c p f name isDir := by
  rw [visit, hdir]
  rfl

/-- What cannot be probed is passed over. -/
theorem visit_of_error (hs : h.Sound) {f : Frame} {e : Errno}
    (he : h.isDirectory c.followLinks (f.directory ++ name) = .error e) :
    visit h c p f name = .ok .pass := by
  rw [visit, he, orAbsent, if_pos (Host.meansAbsent_of_isDirectory hs.mild he)]
  rfl

/-- What is given for a name in a directory if it is found as a file. -/
theorem eq_of_visit_file {f : Frame} {path : Text}
    (hv : visit h c p f name = .ok (.file path)) :
    path = if c.relative then f.relative ++ name else f.directory ++ name := by
  obtain ⟨found, -, hv⟩ := bind_eq_ok_iff.mp hv
  cases found with
  | none => cases hv
  | some isDir =>
    change visitKind h c p f name isDir = .ok (.file path) at hv
    rw [visitKind_eq_map] at hv
    obtain ⟨read, -, hread⟩ := map_eq_ok_iff.mp hv
    split at hread
    · split at hread
      · cases hread
      · exact (Visit.file.inj hread).symm
    · cases hread

/-- The frame of a directory, with the ignore files of the directories above its names loaded. -/
structure FrameFor (h : Host) (b : Pathname) (p₀ p : Policy) (f : Frame) (ds : List Text) :
    Prop where
  proper : ∀ d ∈ ds, IsProper d
  directory : f.directory = pathOf b ds
  relative : f.relative = dir ds
  /-- The frame knows of a rule for an interpreter if one holds in the directory; it may know of
  others. -/
  reads : (p₀.along h ds).readsFirstLine = true → f.readsFirstLine = true
  knows : p.Knows ds

/-- **What is done with a name does not depend on what has been loaded besides, nor on whether a
first line was looked at for the sake of rules that do not hold there.** -/
theorem visit_eq_visitAt (hs : h.Sound) (hb : b.IsNormal) (hroot : p₀.RootedAt b)
    (hp : p₀.Coherent h p) {f : Frame} (hf : FrameFor h b p₀ p f ds) (hname : IsProper name) :
    visit h c p f name = visitAt h c b p₀ ds name := by
  have hpath : f.directory ++ name = (frameAt h b p₀ ds).directory ++ name := by
    rw [hf.directory]
    rfl
  rw [visitAt]
  cases hdir : h.isDirectory c.followLinks (f.directory ++ name) with
  | error e => rw [visit_of_error hs hdir, visit_of_error hs (hpath ▸ hdir)]
  | ok isDir =>
    obtain ⟨line, hline⟩ := Host.exists_firstLine_eq hs.mild (f.directory ++ name)
    rw [visit_of_isDirectory hdir, visit_of_isDirectory (hpath ▸ hdir), visitKind_eq hline,
      visitKind_eq (hpath ▸ hline), hf.directory, hf.relative, pathOf,
      hp.allowsAlone_firstLine hb hroot hf.proper hf.knows hname.1 hf.reads]
    rfl

theorem visitAt_of_error (hs : h.Sound) {e : Errno}
    (he : h.isDirectory c.followLinks (pathOf b ds ++ name) = .error e) :
    visitAt h c b p₀ ds name = .ok .pass :=
  have he' : h.isDirectory c.followLinks ((frameAt h b p₀ ds).directory ++ name) = .error e := he
  visit_of_error hs he'

/-- What is done with a name, by what it bears and by the rules that hold in its directory. -/
theorem visitAt_of_isDirectory {isDir : Bool} {line : Option Text}
    (hdir : h.isDirectory c.followLinks (pathOf b ds ++ name) = .ok isDir)
    (hline : h.firstLine (pathOf b ds ++ name) = .ok line) :
    visitAt h c b p₀ ds name = .ok
      (if (p₀.along h ds).allowsAlone ⟨pathOf b ds ++ name, isDir,
          if (p₀.along h ds).readsFirstLine && mayBeScript isDir name then line else none⟩ then
        if isDir then .directory
        else .file (if c.relative then dir ds ++ name else pathOf b ds ++ name)
      else .pass) := by
  have hdir' : h.isDirectory c.followLinks ((frameAt h b p₀ ds).directory ++ name) = .ok isDir :=
    hdir
  have hline' : h.firstLine ((frameAt h b p₀ ds).directory ++ name) = .ok line := hline
  rw [visitAt, visit_of_isDirectory hdir', visitKind_eq hline']
  rfl

/-- A name is entered as a directory if it bears one that is allowed. -/
theorem visitAt_eq_directory_iff (hs : h.Sound) :
    visitAt h c b p₀ ds name = .ok .directory ↔
      h.isDirectory c.followLinks (pathOf b ds ++ name) = .ok true ∧
        (p₀.along h ds).allowsAlone ⟨pathOf b ds ++ name, true, none⟩ = true := by
  cases hdir : h.isDirectory c.followLinks (pathOf b ds ++ name) with
  | error e =>
    rw [visitAt_of_error hs hdir]
    simp
  | ok isDir =>
    obtain ⟨line, hline⟩ := Host.exists_firstLine_eq hs.mild (pathOf b ds ++ name)
    rw [visitAt_of_isDirectory hdir hline]
    cases isDir with
    | true =>
      have hscript : mayBeScript true name = false := rfl
      rw [hscript, Bool.and_false]
      simp
    | false =>
      refine iff_of_false ?_ (by simp)
      generalize (if (p₀.along h ds).readsFirstLine && mayBeScript false name then line else none)
        = read
      rw [if_neg Bool.false_ne_true]
      split <;> simp

/-- A name is found as a file if it bears one that is allowed. -/
theorem visitAt_eq_file_iff (hs : h.Sound) {path : Text} {line : Option Text}
    (hline : h.firstLine (pathOf b ds ++ name) = .ok line) :
    visitAt h c b p₀ ds name = .ok (.file path) ↔
      h.isDirectory c.followLinks (pathOf b ds ++ name) = .ok false ∧
        (p₀.along h ds).allowsAlone ⟨pathOf b ds ++ name, false,
          if (p₀.along h ds).readsFirstLine && mayBeScript false name then line else none⟩ = true ∧
        path = if c.relative then dir ds ++ name else pathOf b ds ++ name := by
  cases hdir : h.isDirectory c.followLinks (pathOf b ds ++ name) with
  | error e =>
    rw [visitAt_of_error hs hdir]
    simp
  | ok isDir =>
    rw [visitAt_of_isDirectory hdir hline]
    cases isDir with
    | true =>
      refine iff_of_false ?_ (by simp)
      generalize (if (p₀.along h ds).readsFirstLine && mayBeScript true name then line else none)
        = read
      rw [if_pos rfl]
      split <;> simp
    | false =>
      generalize (if (p₀.along h ds).readsFirstLine && mayBeScript false name then line else none)
        = read
      generalize (if c.relative then dir ds ++ name else pathOf b ds ++ name) = found
      rw [if_neg Bool.false_ne_true]
      split
      · rename_i hallow
        simp [hallow, eq_comm]
      · rename_i hallow
        simp [hallow]

/-- Some answer is found for each name. -/
theorem exists_visitAt_eq (hs : h.Sound) (ds : List Text) (name : Text) :
    ∃ v, visitAt h c b p₀ ds name = .ok v := by
  cases hdir : h.isDirectory c.followLinks (pathOf b ds ++ name) with
  | error e => exact ⟨_, visitAt_of_error hs hdir⟩
  | ok isDir =>
    obtain ⟨line, hline⟩ := Host.exists_firstLine_eq hs.mild (pathOf b ds ++ name)
    exact ⟨_, visitAt_of_isDirectory hdir hline⟩

/-! ## The files below a directory -/

/-- **The room that is kept for a chain does not matter once it is enough.** -/
theorem filesBelow_eq_of_room (hs : h.Sound) (hb : b.IsNormal) {room room' : Nat}
    (ht : Trail h c b ds above seen) (hroom : h.files.directoryCount < ds.length + room)
    (hroom' : h.files.directoryCount < ds.length + room') :
    filesBelow h c b p₀ room ds above = filesBelow h c b p₀ room' ds above := by
  induction room generalizing ds above seen room' with
  | zero => exact absurd (ht.length_le hb) (Nat.not_le.mpr hroom)
  | succ room ih =>
    cases room' with
    | zero => exact absurd (ht.length_le hb) (Nat.not_le.mpr hroom')
    | succ room' =>
      rw [filesBelow, filesBelow]
      cases hcontents : contents h c (pathOf b ds) above with
      | error e => rfl
      | ok met =>
        cases met with
        | none => rfl
        | some met =>
          obtain ⟨inodes, names⟩ := met
          refine List.flatMap_congr (fun name hname => ?_)
          cases hv : visitAt h c b p₀ ds name with
          | error e => rfl
          | ok v =>
            cases v with
            | pass => rfl
            | file path => rfl
            | directory =>
              have hproper := isProper_of_mem_contents hs.regular.proper hcontents hname
              have hdir := ((visitAt_eq_directory_iff hs).mp hv).1
              obtain ⟨seen', ht'⟩ := (ht.opened hb hcontents).entry hproper hdir
              refine ih ht' ?_ ?_
              · rw [List.length_append, List.length_singleton]
                omega
              · rw [List.length_append, List.length_singleton]
                omega

section
variable (h : Host) (c : Config) (b : Pathname) (p₀ : Policy)

/-- All files that are found below a directory. -/
def files (ds : List Text) (above : List Nat) : List Text :=
  filesBelow h c b p₀ (roomFor h) ds above

/-- The files that are found for names in a directory. -/
def filesAmong (ds : List Text) (inodes : List Nat) (names : List Text) : List Text :=
  names.flatMap fun name =>
    filesOf (visitAt h c b p₀ ds name) (files h c b p₀ (ds ++ [name]) inodes)

end

theorem filesBelow_eq_files (hs : h.Sound) (hb : b.IsNormal) {room : Nat}
    (ht : Trail h c b ds above seen) (hroom : h.files.directoryCount < ds.length + room) :
    filesBelow h c b p₀ room ds above = files h c b p₀ ds above :=
  filesBelow_eq_of_room hs hb ht hroom (by rw [roomFor]; omega)

/-- The files below a directory are those found for the names in it. -/
theorem files_of_contents (hs : h.Sound) (hb : b.IsNormal) (ht : Trail h c b ds above seen)
    (hcontents : contents h c (pathOf b ds) above = .ok (some (inodes, names))) :
    files h c b p₀ ds above = filesAmong h c b p₀ ds inodes names := by
  rw [files, roomFor, filesBelow, hcontents, filesAmong]
  refine List.flatMap_congr (fun name hname => ?_)
  cases hv : visitAt h c b p₀ ds name with
  | error e => rfl
  | ok v =>
    cases v with
    | pass => rfl
    | file path => rfl
    | directory =>
      have hproper := isProper_of_mem_contents hs.regular.proper hcontents hname
      obtain ⟨seen', ht'⟩ :=
        (ht.opened hb hcontents).entry hproper ((visitAt_eq_directory_iff hs).mp hv).1
      apply filesBelow_eq_files hs hb ht'
      rw [List.length_append, List.length_singleton]
      omega

/-- Nothing is found below a directory that is not entered. -/
theorem files_eq_nil (hcontents : ∀ met, contents h c (pathOf b ds) above ≠ .ok (some met)) :
    files h c b p₀ ds above = [] := by
  rw [files, roomFor, filesBelow]
  cases hc : contents h c (pathOf b ds) above with
  | error e => rfl
  | ok met =>
    cases met with
    | none => rfl
    | some met => exact absurd hc (hcontents met)

end Walk
end PathFilter
