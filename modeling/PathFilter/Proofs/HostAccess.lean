import PathFilter.Host
import PathFilter.Proofs.Lookup
import PathFilter.Proofs.Pathnames

/-! # What a host finds at paths in normal form

A host is sound if its current directory is an absolute path and its file system is in order:
names lead down, each directory has an inode number of its own, and no errors are injected
(`Host.Sound`).  There, everything that is asked about a path in normal form is settled by where
the names of its directory lead.

* A directory that can be listed is one that its names lead to, and its list holds the names of
  all that is in it (`list_eq_ok_iff`, `mem_childrenAt_iff`).
* What bears a name in a directory is found without following a last link
  (`node_false_eq_ok_iff`), or with that link followed (`node_true_eq_ok_iff`).
* A file that is not in the list of its directory is read as one without lines
  (`readLines_of_not_mem`), and no file is found that cannot be read
  (`exists_readLines_eq`, `exists_firstLine_eq`).
-/

namespace PathFilter

theorem Text.mem_insertSorted_iff {t s : Text} {ts : List Text} :
    s ∈ insertSorted t ts ↔ s = t ∨ s ∈ ts := by
  induction ts with
  | nil => simp [insertSorted]
  | cons a ts ih =>
    rw [insertSorted]
    split
    · rename_i h
      subst h
      simp
    · split
      · simp
      · rw [List.mem_cons, ih, List.mem_cons]
        exact or_left_comm

/-- Sorting texts keeps each of them. -/
theorem Text.mem_sort_iff {t : Text} {ts : List Text} : t ∈ sort ts ↔ t ∈ ts := by
  induction ts with
  | nil => rfl
  | cons a ts ih => rw [sort, mem_insertSorted_iff, ih, List.mem_cons]

namespace FileSystem
variable {fs : FileSystem} {l : Location} {name : Text}

/-- All names lead down. -/
def Proper (fs : FileSystem) : Prop := ∀ e ∈ fs.nodes, ∀ c ∈ e.1, Path.IsProper c

instance (fs : FileSystem) : Decidable fs.Proper :=
  inferInstanceAs (Decidable (∀ e ∈ fs.nodes, ∀ c ∈ e.1, Path.IsProper c))

/-- All names lead down, and no two directories share an inode number. -/
structure Regular (fs : FileSystem) : Prop where
  proper : ∀ e ∈ fs.nodes, ∀ c ∈ e.1, Path.IsProper c
  inodes : ∀ {l₁ l₂ : Location} {n₁ n₂ : Node}, fs.get? l₁ = some n₁ → fs.get? l₂ = some n₂ →
    n₁.kind = .directory → n₂.kind = .directory → n₁.inode = n₂.inode → l₁ = l₂

/-- The list of a directory holds the names of all that is in it. -/
theorem mem_childrenAt_iff : name ∈ fs.childrenAt l ↔ ∃ n, fs.get? (l ++ [name]) = some n := by
  rw [childrenAt, Text.mem_sort_iff, List.mem_filterMap]
  constructor
  · rintro ⟨⟨k, n⟩, hmem, h⟩
    simp only at h
    split at h
    · rename_i hk
      subst hk
      have hkey : k = k.dropLast ++ [name] := (List.dropLast_append_getLast? name h).symm
      rw [← hkey]
      cases hn : fs.get? k with
      | some n => exact ⟨n, rfl⟩
      | none => exact absurd hmem (fun hmem => by
          simpa using List.lookup_eq_none_iff.mp hn _ hmem)
    · cases h
  · rintro ⟨n, hn⟩
    exact ⟨(l ++ [name], n), mem_nodes_of_get? hn, by simp⟩

theorem Proper.isProper_of_mem_childrenAt (hfs : fs.Proper) (h : name ∈ fs.childrenAt l) :
    Path.IsProper name := by
  obtain ⟨n, hn⟩ := mem_childrenAt_iff.mp h
  exact hfs _ (mem_nodes_of_get? hn) name (List.mem_append_right l (List.mem_singleton_self _))

theorem Regular.isProper_of_mem_childrenAt (hr : fs.Regular) (h : name ∈ fs.childrenAt l) :
    Path.IsProper name :=
  Proper.isProper_of_mem_childrenAt hr.proper h

/-- What can be listed is a directory, and what is listed are the names in it. -/
theorem exists_node_of_list {path : Text} {names : List Text} (hlist : fs.list path = .ok names) :
    ∃ l n, fs.node true path = .ok (l, n) ∧ n.kind = .directory ∧ names = fs.childrenAt l := by
  obtain ⟨⟨l, n⟩, hn, hlist⟩ := bind_eq_ok_iff.mp hlist
  obtain ⟨_, -, hlist⟩ := bind_eq_ok_iff.mp hlist
  split at hlist
  · rename_i hkind
    exact ⟨l, n, hn, hkind, (Except.ok.inj hlist).symm⟩
  · cases hlist

/-- What can be asked what it is exists. -/
theorem exists_node_of_stat {followLast : Bool} {path : Text} {n : Node}
    (hstat : fs.stat followLast path = .ok n) : ∃ l, fs.node followLast path = .ok (l, n) := by
  obtain ⟨⟨l, n'⟩, hn, hstat⟩ := bind_eq_ok_iff.mp hstat
  obtain ⟨_, -, hstat⟩ := bind_eq_ok_iff.mp hstat
  cases hstat
  exact ⟨l, hn⟩

theorem exists_childrenAt_of_list {path : Text} {names : List Text}
    (hlist : fs.list path = .ok names) : ∃ l, names = fs.childrenAt l := by
  obtain ⟨l, _, -, -, hnames⟩ := exists_node_of_list hlist
  exact ⟨l, hnames⟩

end FileSystem

namespace Host
open FileSystem
variable {h : Host} {p : Pathname} {c : Text} {l : Location} {n : Node} {names : List Text}

/-- The current directory is an absolute path, and the file system is in order. -/
structure Sound (h : Host) : Prop where
  cwd : h.cwd.head? = some '/'
  regular : h.files.Regular
  calm : h.files.Calm

theorem Sound.mild (hs : h.Sound) : h.files.Mild := hs.calm.mild

/-! ## Paths in normal form -/

/-- An absolute path is looked up as it stands. -/
theorem fromCwd_of_head? {path : Text} (hpath : path.head? = some '/') :
    h.fromCwd path = path := by
  rw [fromCwd, Path.join, if_pos hpath, ite_self]

/-- An absolute path begins with no home directory. -/
theorem expand_of_head? {path : Text} (hpath : path.head? = some '/') : h.expand path = path := by
  cases path with
  | nil => rfl
  | cons c path =>
    obtain rfl : c = '/' := Option.some.inj hpath
    rfl

/-- The current directory has no part in the normal form of an absolute path. -/
theorem absolute_of_head? {path : Text} (hpath : path.head? = some '/') :
    h.absolute path = Path.normalize path := by
  rw [absolute, Path.absolute, Path.join_of_head? hpath]

theorem fromCwd_dirText_append (hp : p.IsNormal) (t : Text) :
    h.fromCwd (p.dirText ++ t) = p.dirText ++ t :=
  fromCwd_of_head? (hp.head?_dirText_append t)

theorem fromCwd_dirText (hp : p.IsNormal) : h.fromCwd p.dirText = p.dirText :=
  fromCwd_of_head? hp.head?_dirText

theorem locate_of_head? {fs : FileSystem} {followLast : Bool} {path : Text}
    (hpath : path.head? = some '/') :
    fs.locate followLast path = fs.locateFrom followLast linkLimit [] (lookupNames path) := by
  rw [locate, if_neg]
  rw [List.isEmpty_iff]
  rintro rfl
  cases hpath

/-! ## Nodes -/

/-- A directory is found where its names lead to one. -/
theorem node_dirText_eq_ok_iff {fs : FileSystem} (hp : p.IsNormal) :
    fs.node true p.dirText = .ok (l, n) ↔
      n.kind = .directory ∧ fs.get? l = some n ∧ ∃ k, fs.Leads linkLimit [] p.components k l := by
  rw [node_eq_ok_iff, locate_of_head? hp.head?_dirText, hp.lookupNames_dirText,
    locateFrom_true_eq_ok_iff]
  constructor
  · rintro ⟨⟨k, hk⟩, hn⟩
    obtain ⟨k₁, l₁, h₁, h₂⟩ := leads_append_iff.mp hk
    obtain ⟨⟨n₁, hn₁, hkind⟩, ⟨-, h₂⟩ | ⟨habove, -⟩ | ⟨hname, -⟩⟩ := leads_cons_iff.mp h₂
    · obtain ⟨rfl, rfl⟩ := leads_nil_iff.mp h₂
      cases hn.symm.trans hn₁
      exact ⟨hkind, hn, k, h₁⟩
    · exact absurd habove (by decide)
    · exact absurd rfl hname.ne_here
  · rintro ⟨hkind, hn, k, hk⟩
    exact ⟨⟨k, leads_append_iff.mpr ⟨k, l, hk, .here ⟨n, hn, hkind⟩ (.nil k l)⟩⟩, hn⟩

/-- What bears a name in a directory is found, a link followed, where the names lead. -/
theorem node_true_eq_ok_iff {fs : FileSystem} (hp : p.IsNormal) (hc : c.IsName) :
    fs.node true (p.dirText ++ c) = .ok (l, n) ↔
      fs.get? l = some n ∧ ∃ k, fs.Leads linkLimit [] (p.components ++ [c]) k l := by
  rw [node_eq_ok_iff, locate_of_head? (hp.head?_dirText_append c),
    hp.lookupNames_dirText_append hc, locateFrom_true_eq_ok_iff]
  exact and_comm

/-- Where there are no links, what bears a name in a directory lies where the names say. -/
theorem location_of_node {fs : FileSystem} (hfs : fs.WithoutLinks) (hp : p.IsNormal)
    (hc : Path.IsProper c) (hn : fs.node true (p.dirText ++ c) = .ok (l, n)) :
    l = p.components ++ [c] := by
  obtain ⟨-, k, hk⟩ := (node_true_eq_ok_iff hp hc.1).mp hn
  have hnormal : (p.into [c]).IsNormal := hp.into (fun d hd => List.mem_singleton.mp hd ▸ hc)
  have heq := hk.eq_append_of_withoutLinks hfs (fun d hd => (hnormal.proper d hd).2)
  rwa [List.nil_append] at heq

/-- What bears a name in a directory is found, a link not followed, in that directory. -/
theorem node_false_eq_ok_iff {fs : FileSystem} (hp : p.IsNormal) (hc : Path.IsProper c) :
    fs.node false (p.dirText ++ c) = .ok (l, n) ↔
      IsEntryName c ∧ fs.get? l = some n ∧
        ∃ k d, fs.Leads linkLimit [] p.components k d ∧ fs.HoldsDirectory d ∧ l = d ++ [c] := by
  rw [node_eq_ok_iff, locate_of_head? (hp.head?_dirText_append c),
    hp.lookupNames_dirText_append hc.1, locateFrom_false_concat_eq_ok_iff hc.2.1 hc.2.2]
  constructor
  · rintro ⟨⟨hname, k, d, hk, hd, rfl, -⟩, hn⟩
    exact ⟨hname, hn, k, d, hk, hd, rfl⟩
  · rintro ⟨hname, hn, k, d, hk, hd, rfl⟩
    exact ⟨⟨hname, k, d, hk, hd, rfl, n, hn⟩, hn⟩

/-- Names that lead on from a directory go through what is in it. -/
theorem exists_get?_of_leads_concat {fs : FileSystem} {k : Nat} {ns : List Text}
    (hc : Path.IsProper c) (hk : fs.Leads linkLimit [] (ns ++ [c]) k l) :
    ∃ k₁ d n, fs.Leads linkLimit [] ns k₁ d ∧ fs.HoldsDirectory d ∧ IsEntryName c ∧
      fs.get? (d ++ [c]) = some n ∧ ((∀ t, n.kind ≠ .link t) → l = d ++ [c]) := by
  obtain ⟨k₁, d, h₁, h₂⟩ := leads_append_iff.mp hk
  obtain ⟨hd, ⟨rfl, -⟩ | ⟨rfl, -⟩ | ⟨hname, n, hn, h₂⟩⟩ := leads_cons_iff.mp h₂
  · exact absurd rfl hc.2.1
  · exact absurd rfl hc.2.2
  · refine ⟨k₁, d, n, h₁, hd, hname, hn, fun hkind => ?_⟩
    rcases h₂ with ⟨-, h₂⟩ | ⟨-, t, -, ht, -⟩
    · exact (leads_nil_iff.mp h₂).2
    · exact absurd ht (hkind t)

/-- Above whatever is found there are directories, at the locations that their names lead to. -/
theorem exists_node_of_leads_append {fs : FileSystem} (hp : p.IsNormal) {k : Nat} {ns : List Text}
    (hns : ns ≠ []) (hk : fs.Leads linkLimit [] (p.components ++ ns) k l) :
    ∃ d n, fs.node true p.dirText = .ok (d, n) := by
  obtain ⟨k₁, d, h₁, h₂⟩ := leads_append_iff.mp hk
  obtain ⟨c, ns, rfl⟩ := List.exists_cons_of_ne_nil hns
  obtain ⟨⟨n, hn, hkind⟩, -⟩ := leads_cons_iff.mp h₂
  exact ⟨d, n, (node_dirText_eq_ok_iff hp).mpr ⟨hkind, hn, k₁, h₁⟩⟩

/-- What is no link is found whether a last link is followed or not. -/
theorem node_true_of_node_false {fs : FileSystem} (hp : p.IsNormal) (hc : Path.IsProper c)
    (hkind : ∀ target, n.kind ≠ .link target) (h : fs.node false (p.dirText ++ c) = .ok (l, n)) :
    fs.node true (p.dirText ++ c) = .ok (l, n) := by
  obtain ⟨hname, hn, k, d, hk, hd, rfl⟩ := (node_false_eq_ok_iff hp hc).mp h
  have hlast : fs.Leads k d [c] k (d ++ [c]) := .entry hd hname hn hkind (.nil k _)
  exact (node_true_eq_ok_iff hp hc.1).mpr ⟨hn, k, leads_append_iff.mpr ⟨k, d, hk, hlast⟩⟩

/-- Where there are no links, it does not matter whether a last one is followed. -/
theorem node_false_eq_ok_iff_of_withoutLinks {fs : FileSystem} (hfs : fs.WithoutLinks)
    (hp : p.IsNormal) (hc : Path.IsProper c) :
    fs.node false (p.dirText ++ c) = .ok (l, n) ↔ fs.node true (p.dirText ++ c) = .ok (l, n) := by
  constructor
  · intro h
    have hn := ((node_false_eq_ok_iff hp hc).mp h).2.1
    exact node_true_of_node_false hp hc (hfs _ (mem_nodes_of_get? hn)) h
  · intro h
    obtain ⟨hn, k, hk⟩ := (node_true_eq_ok_iff hp hc.1).mp h
    obtain ⟨k₁, d, n₁, h₁, hd, hname, hn₁, hl⟩ := exists_get?_of_leads_concat hc hk
    exact (node_false_eq_ok_iff hp hc).mpr
      ⟨hname, hn, k₁, d, h₁, hd, hl (hfs _ (mem_nodes_of_get? hn₁))⟩

/-! ## Questions to the host -/

theorem Sound.stat_eq_ok_iff (hs : h.Sound) {followLast : Bool} {path : Text}
    (hpath : path.head? = some '/') :
    h.stat followLast path = .ok n ↔ ∃ l, h.files.node followLast path = .ok (l, n) := by
  rw [stat, fromCwd_of_head? hpath, hs.calm.stat_eq_ok_iff]

theorem Sound.isDirectory_eq_ok_iff (hs : h.Sound) {followLast isDir : Bool} {path : Text}
    (hpath : path.head? = some '/') :
    h.isDirectory followLast path = .ok isDir ↔
      ∃ l n, h.files.node followLast path = .ok (l, n) ∧ decide (n.kind = .directory) = isDir := by
  rw [isDirectory, map_eq_ok_iff]
  constructor
  · rintro ⟨n, hn, hdir⟩
    obtain ⟨l, hn⟩ := (hs.stat_eq_ok_iff hpath).mp hn
    exact ⟨l, n, hn, hdir⟩
  · rintro ⟨l, n, hn, hdir⟩
    exact ⟨n, (hs.stat_eq_ok_iff hpath).mpr ⟨l, hn⟩, hdir⟩

theorem meansAbsent_of_isDirectory (hm : h.files.Mild) {followLast : Bool} {path : Text}
    {e : Errno} (he : h.isDirectory followLast path = .error e) : e.meansAbsent = true := by
  rw [isDirectory] at he
  cases hn : h.stat followLast path with
  | error e₁ =>
    rw [hn] at he
    cases he
    exact hm.meansAbsent_of_stat hn
  | ok n => rw [hn] at he; cases he

/-- **A directory that can be listed is one that its names lead to.** -/
theorem Sound.list_eq_ok_iff (hs : h.Sound) (hp : p.IsNormal) :
    h.list p.dirText = .ok names ↔
      ∃ k l, h.files.Leads linkLimit [] p.components k l ∧ h.files.HoldsDirectory l ∧
        names = h.files.childrenAt l := by
  rw [list, fromCwd_dirText hp, hs.calm.list_eq_ok_iff]
  constructor
  · rintro ⟨l, n, hn, -, rfl⟩
    obtain ⟨hkind, hn, k, hk⟩ := (node_dirText_eq_ok_iff hp).mp hn
    exact ⟨k, l, hk, ⟨n, hn, hkind⟩, rfl⟩
  · rintro ⟨k, l, hk, ⟨n, hn, hkind⟩, rfl⟩
    exact ⟨l, n, (node_dirText_eq_ok_iff hp).mpr ⟨hkind, hn, k, hk⟩, hkind, rfl⟩

/-- What can be found in a directory is in its list. -/
theorem mem_of_node (hp : p.IsNormal) (hc : Path.IsProper c) (hlist : h.list p.dirText = .ok names)
    (hn : h.files.node true (p.dirText ++ c) = .ok (l, n)) : c ∈ names := by
  rw [list, fromCwd_dirText hp] at hlist
  obtain ⟨d, n', hn', -, rfl⟩ := exists_node_of_list hlist
  obtain ⟨-, -, k, hk⟩ := (node_dirText_eq_ok_iff hp).mp hn'
  obtain ⟨-, k', hk'⟩ := (node_true_eq_ok_iff hp hc.1).mp hn
  obtain ⟨k₁, d₁, n₁, h₁, -, -, hn₁, -⟩ := exists_get?_of_leads_concat hc hk'
  obtain ⟨-, rfl⟩ := hk.unique h₁
  exact mem_childrenAt_iff.mpr ⟨n₁, hn₁⟩

/-- A directory of its own lies in the directory that holds its name. -/
theorem location_of_isDirectory (hp : p.IsNormal) (hc : Path.IsProper c)
    (hdir : h.isDirectory false (p.dirText ++ c) = .ok true) {l' : Location} {n' : Node}
    (hn : h.files.node true p.dirText = .ok (l, n))
    (hn' : h.files.node true (p.into [c]).dirText = .ok (l', n')) : l' = l ++ [c] := by
  have hnormal : (p.into [c]).IsNormal := hp.into (fun d hd => List.mem_singleton.mp hd ▸ hc)
  obtain ⟨n₁, hstat, hkind⟩ := map_eq_ok_iff.mp hdir
  obtain ⟨l₁, hn₁⟩ := exists_node_of_stat hstat
  rw [fromCwd_dirText_append hp] at hn₁
  obtain ⟨-, hget₁, k₁, d₁, hk₁, -, rfl⟩ := (node_false_eq_ok_iff hp hc).mp hn₁
  obtain ⟨-, -, k, hk⟩ := (node_dirText_eq_ok_iff hp).mp hn
  obtain ⟨-, -, k', hk'⟩ := (node_dirText_eq_ok_iff hnormal).mp hn'
  obtain ⟨k₂, d₂, n₂, hk₂, -, -, hget₂, hl'⟩ := exists_get?_of_leads_concat hc hk'
  obtain ⟨-, rfl⟩ := hk.unique hk₁
  obtain ⟨-, rfl⟩ := hk.unique hk₂
  cases hget₁.symm.trans hget₂
  refine hl' (fun t ht => ?_)
  rw [ht] at hkind
  cases hkind

/-- Where errors are mild, reading a file gives something. -/
theorem exists_readOr_eq (hm : h.files.Mild) {α : Type} (path : Text) (absent : α)
    (use : Text → α) : ∃ a, h.readOr path absent use = .ok a := by
  rw [readOr]
  split
  · exact ⟨_, rfl⟩
  · rename_i e he
    refine ⟨absent, if_pos ?_⟩
    rw [readText] at he
    cases hread : h.files.read (h.fromCwd path) with
    | error e₁ =>
      rw [hread] at he
      cases he
      rcases hm.meansAbsent_of_read hread with habsent | rfl
      · simp [habsent]
      · simp
    | ok bytes => rw [hread] at he; cases he

theorem exists_readLines_eq (hm : h.files.Mild) (path : Text) : ∃ ls, h.readLines path = .ok ls :=
  exists_readOr_eq hm path [] Text.lines

theorem exists_firstLine_eq (hm : h.files.Mild) (path : Text) : ∃ t, h.firstLine path = .ok t :=
  exists_readOr_eq hm path none fun t => some t.firstLine

/-- A file that is not in the list of its directory is read as one without lines. -/
theorem readLines_of_not_mem (hp : p.IsNormal) (hc : Path.IsProper c)
    (hlist : h.list p.dirText = .ok names) (hmem : c ∉ names) :
    h.readLines (p.dirText ++ c) = .ok [] := by
  obtain ⟨e, he⟩ : ∃ e, h.files.node true (p.dirText ++ c) = .error e := by
    cases hn : h.files.node true (p.dirText ++ c) with
    | error e => exact ⟨e, rfl⟩
    | ok found => exact absurd (mem_of_node hp hc hlist hn) hmem
  have hread : h.readText (p.dirText ++ c) = .error e := by
    rw [readText, fromCwd_dirText_append hp, FileSystem.read, he]
    rfl
  rw [readLines, readOr, hread]
  simp [meansAbsent_of_node he]

end Host
end PathFilter
