import Mathlib.Data.List.Induction
import PathFilter.Proofs.Listing

/-! # Where an enumeration gets to

An enumeration enters the root and, from each directory that it has entered, the allowed ones in
it, unless it is inside of them already (`Walk.Entered`).  **The files that it finds are those that
it meets in the directories that it enters** (`mem_files_iff`).

If the file system has no links, or links are followed, a directory that exists is entered exactly
if it and the directories above it are allowed and no two of these are the same one
(`exists_entered_iff`).
-/

namespace PathFilter

/-- The inode number of what a path leads to, if it leads to anything. -/
def Host.inodeAt (h : Host) (path : Text) : Option Nat :=
  (h.stat true path).toOption.map (·.inode)

namespace Walk
open PathFilter.Path FileSystem

section
variable (h : Host) (c : Config) (b : Pathname) (p₀ : Policy)

/-- The directories that an enumeration enters, with the inode numbers that it holds in them. -/
inductive Entered : List Text → List Nat → Prop where
  | root {inodes : List Nat} : chain h c (pathOf b []) [] = .ok (some inodes) → Entered [] inodes
  | entry {ds : List Text} {name : Text} {above inodes : List Nat} {names : List Text} :
      Entered ds above → h.list (pathOf b ds) = .ok names → name ∈ names →
      visitAt h c b p₀ ds name = .ok .directory →
      chain h c (pathOf b (ds ++ [name])) above = .ok (some inodes) →
        Entered (ds ++ [name]) inodes

/-- The directories on the way down from a base directory, itself and the last one included. -/
def wayTo (ds : List Text) : List Text :=
  b.dirText :: descend b.dirText ds

end

variable {h : Host} {c : Config} {b : Pathname} {p₀ : Policy} {ds : List Text}
  {above inodes : List Nat} {name : Text} {names : List Text} {t : Text}

/-! ## Files in the directories that are entered -/

namespace Entered
variable (he : Entered h c b p₀ ds inodes)
include he

theorem exists_trail (hs : h.Sound) (hb : b.IsNormal) : ∃ above seen,
    Trail h c b ds above seen ∧ chain h c (pathOf b ds) above = .ok (some inodes) := by
  induction he with
  | root hchain => exact ⟨[], [], .root, hchain⟩
  | @entry ds name above inodes names _ hlist hname hv hchain ih =>
    obtain ⟨above', seen, ht, hchain'⟩ := ih
    have hcontents := contents_eq_ok_some_iff.mpr ⟨hchain', hlist⟩
    have hproper := isProper_of_mem_contents hs.regular.proper hcontents hname
    obtain ⟨seen', ht'⟩ :=
      (ht.opened hb hcontents).entry hproper ((visitAt_eq_directory_iff hs).mp hv).1
    exact ⟨above, seen', ht', hchain⟩

theorem isProper (hs : h.Sound) (hb : b.IsNormal) : ∀ d ∈ ds, IsProper d := by
  obtain ⟨_, _, ht, -⟩ := he.exists_trail hs hb
  exact ht.isProper

theorem isProper_of_mem (hs : h.Sound) (hb : b.IsNormal)
    (hlist : h.list (pathOf b ds) = .ok names) (hname : name ∈ names) : IsProper name := by
  obtain ⟨_, _, ht, hchain⟩ := he.exists_trail hs hb
  have hcontents := contents_eq_ok_some_iff.mpr ⟨hchain, hlist⟩
  exact isProper_of_mem_contents hs.regular.proper hcontents hname

/-- The directories on the way to one that is entered are allowed. -/
theorem allowsWay (hs : h.Sound) : p₀.AllowsWay h b ds := by
  induction he with
  | root _ => exact Policy.allowsWay_nil h p₀ b
  | entry _ _ _ hv _ ih =>
    exact Policy.allowsWay_concat_iff.mpr ⟨ih, ((visitAt_eq_directory_iff hs).mp hv).2⟩

/-- What is found in a directory that is entered is found. -/
theorem filesAmong_subset (hs : h.Sound) (hb : b.IsNormal)
    (hlist : h.list (pathOf b ds) = .ok names) :
    filesAmong h c b p₀ ds inodes names ⊆ files h c b p₀ [] [] := by
  induction he generalizing names with
  | root hchain =>
    rw [files_of_contents hs hb .root (contents_eq_ok_some_iff.mpr ⟨hchain, hlist⟩)]
    exact List.Subset.refl _
  | @entry ds name above inodes names' he hlist' hname hv hchain ih =>
    have hcontents := contents_eq_ok_some_iff.mpr ⟨hchain, hlist⟩
    obtain ⟨above', seen, ht, hchain'⟩ := he.exists_trail hs hb
    have hcontents' := contents_eq_ok_some_iff.mpr ⟨hchain', hlist'⟩
    have hproper := isProper_of_mem_contents hs.regular.proper hcontents' hname
    obtain ⟨seen', ht'⟩ :=
      (ht.opened hb hcontents').entry hproper ((visitAt_eq_directory_iff hs).mp hv).1
    intro t hmem
    refine ih hlist' (List.mem_flatMap.mpr ⟨name, hname, ?_⟩)
    rw [hv, filesOf, files_of_contents hs hb ht' hcontents]
    exact hmem

end Entered

/-- What is found below a directory that is entered, is met in a directory that is entered. -/
theorem exists_entered_of_mem_filesBelow {room : Nat}
    (hds : ∀ inodes, chain h c (pathOf b ds) above = .ok (some inodes) →
      Entered h c b p₀ ds inodes)
    (ht : t ∈ filesBelow h c b p₀ room ds above) :
    ∃ es inodes names name, Entered h c b p₀ es inodes ∧ h.list (pathOf b es) = .ok names ∧
      name ∈ names ∧ visitAt h c b p₀ es name = .ok (.file t) := by
  induction room generalizing ds above with
  | zero => exact absurd ht List.not_mem_nil
  | succ room ih =>
    rw [filesBelow] at ht
    split at ht
    · rename_i inodes names hcontents
      obtain ⟨hchain, hlist⟩ := contents_eq_ok_some_iff.mp hcontents
      obtain ⟨name, hname, ht⟩ := List.mem_flatMap.mp ht
      unfold filesOf at ht
      split at ht
      · rename_i path hv
        rw [List.mem_singleton.mp ht]
        exact ⟨ds, inodes, names, name, hds inodes hchain, hlist, hname, hv⟩
      · rename_i hv
        exact ih (fun _ hchain' => .entry (hds inodes hchain) hlist hname hv hchain') ht
      · exact absurd ht List.not_mem_nil
      · exact absurd ht List.not_mem_nil
    · exact absurd ht List.not_mem_nil
    · exact absurd ht List.not_mem_nil

/-- **The files that are found are those that are met in the directories that are entered.** -/
theorem mem_files_iff (hs : h.Sound) (hb : b.IsNormal) : t ∈ files h c b p₀ [] [] ↔
    ∃ ds inodes names name, Entered h c b p₀ ds inodes ∧ h.list (pathOf b ds) = .ok names ∧
      name ∈ names ∧ visitAt h c b p₀ ds name = .ok (.file t) := by
  constructor
  · exact exists_entered_of_mem_filesBelow (fun _ hchain => .root hchain)
  · rintro ⟨ds, inodes, names, name, he, hlist, hname, hv⟩
    refine he.filesAmong_subset hs hb hlist (List.mem_flatMap.mpr ⟨name, hname, ?_⟩)
    rw [hv]
    exact List.mem_singleton_self t

/-- A path names one directory and one name in it. -/
theorem pathOf_append_inj {es : List Text} {name' : Text} (hds : ∀ d ∈ ds, IsProper d)
    (hes : ∀ e ∈ es, IsProper e) (hname : IsProper name) (hname' : IsProper name')
    (heq : pathOf b ds ++ name = pathOf b es ++ name') : ds = es ∧ name = name' := by
  rw [pathOf, pathOf, List.append_assoc, List.append_assoc] at heq
  have hdir := congrArg (· ++ ['/']) (List.append_cancel_left heq)
  simp only [← dir_concat] at hdir
  have hall : ∀ {cs : List Text} {c : Text}, (∀ d ∈ cs, IsProper d) → IsProper c →
      ∀ d ∈ cs ++ [c], d.IsName := by
    intro cs c hcs hc d hd
    rcases List.mem_append.mp hd with hd | hd
    · exact (hcs d hd).1
    · exact List.mem_singleton.mp hd ▸ hc.1
  obtain ⟨rfl, hlast⟩ := List.append_inj' (dir_inj (hall hds hname) (hall hes hname') hdir) rfl
  exact ⟨rfl, List.singleton_inj.mp hlast⟩

/-! ## Directories that exist -/

theorem wayTo_concat (b : Pathname) (ds : List Text) (d : Text) :
    wayTo b (ds ++ [d]) = wayTo b ds ++ [pathOf b (ds ++ [d])] := by
  rw [wayTo, descend_concat, wayTo, pathOf, List.cons_append]

theorem mem_wayTo_iff : t ∈ wayTo b ds ↔ ∃ as, as <+: ds ∧ t = pathOf b as := by
  rw [wayTo, List.mem_cons, mem_descend_iff]
  constructor
  · rintro (rfl | ⟨as, -, hp, rfl⟩)
    · exact ⟨[], List.nil_prefix, (List.append_nil _).symm⟩
    · exact ⟨as, hp, rfl⟩
  · rintro ⟨as, hp, rfl⟩
    by_cases hne : as = []
    · subst hne
      exact .inl (List.append_nil _)
    · exact .inr ⟨as, hne, hp, rfl⟩

section
variable {l : Location} {n : Node} (hs : h.Sound) (hb : b.IsNormal)
include hs hb

theorem inodeAt_pathOf (hds : ∀ d ∈ ds, IsProper d)
    (hn : h.files.node true (pathOf b ds) = .ok (l, n)) :
    h.inodeAt (pathOf b ds) = some n.inode := by
  have hstat : h.stat true (pathOf b ds) = .ok n :=
    (hs.stat_eq_ok_iff (head?_pathOf hb hds)).mpr ⟨l, hn⟩
  rw [Host.inodeAt, hstat]
  rfl

omit hs in
/-- Above a directory that exists there are directories. -/
theorem exists_node_of_append {es : List Text} (hds : ∀ d ∈ ds ++ es, IsProper d)
    (hn : h.files.node true (pathOf b (ds ++ es)) = .ok (l, n)) :
    ∃ l' n', h.files.node true (pathOf b ds) = .ok (l', n') := by
  by_cases hes : es = []
  · subst hes
    rw [List.append_nil] at hn
    exact ⟨l, n, hn⟩
  · rw [pathOf_eq] at hn ⊢
    obtain ⟨-, -, k, hk⟩ := (Host.node_dirText_eq_ok_iff (hb.into hds)).mp hn
    rw [Pathname.into_append] at hk
    exact Host.exists_node_of_leads_append
      (hb.into (fun d hd => hds d (List.mem_append_left es hd))) hes hk

/-- The number of a directory, where the enumeration is inside of those above it, is held behind
theirs. -/
theorem Entered.inodes_eq (hf : c.followLinks = true) (he : Entered h c b p₀ ds inodes) :
    inodes.map some = ((wayTo b ds).map h.inodeAt).reverse ∧ inodes.Nodup := by
  have hstep : ∀ {es above inodes}, (∀ d ∈ es, IsProper d) →
      chain h c (pathOf b es) above = .ok (some inodes) →
      ∃ i, h.inodeAt (pathOf b es) = some i ∧ i ∉ above ∧ inodes = i :: above := by
    intro es above inodes hes hchain
    rw [chain_eq_ok_some_iff, if_pos hf] at hchain
    obtain ⟨n, hn, hnew, rfl⟩ := hchain
    obtain ⟨l, hn⟩ := (hs.stat_eq_ok_iff (head?_pathOf hb hes)).mp hn
    exact ⟨n.inode, inodeAt_pathOf hs hb hes hn, hnew, rfl⟩
  induction he with
  | root hchain =>
    obtain ⟨i, hi, -, rfl⟩ := hstep (fun d hd => absurd hd List.not_mem_nil) hchain
    have hroot : h.inodeAt b.dirText = some i := by
      rwa [pathOf, dir_nil, List.append_nil] at hi
    refine ⟨?_, List.nodup_singleton i⟩
    rw [wayTo, Path.descend, List.map_singleton, List.map_singleton, hroot]
    rfl
  | @entry ds name above inodes names he hlist hname hv hchain ih =>
    have hds : ∀ d ∈ ds ++ [name], IsProper d :=
      (Entered.entry he hlist hname hv hchain).isProper hs hb
    obtain ⟨i, hi, hnew, rfl⟩ := hstep hds hchain
    refine ⟨?_, List.nodup_cons.mpr ⟨hnew, ih.2⟩⟩
    rw [wayTo_concat, List.map_append, List.reverse_append, List.map_cons, ih.1,
      List.map_singleton, hi]
    rfl

/-- Where there are no links, the directories on the way to one are different ones. -/
theorem nodup_inodes_of_withoutLinks (hlinks : h.files.WithoutLinks)
    (hds : ∀ d ∈ ds, IsProper d) (hn : h.files.node true (pathOf b ds) = .ok (l, n)) :
    ((wayTo b ds).map h.inodeAt).Nodup := by
  -- a directory lies at the location that is named, and its inode number tells where it lies
  have hplace : ∀ {es l n}, (∀ d ∈ es, IsProper d) →
      h.files.node true (pathOf b es) = .ok (l, n) →
      l = b.components ++ es ∧ h.files.get? l = some n ∧ n.kind = .directory := by
    intro es l n hes hn
    rw [pathOf_eq] at hn
    have hnormal := hb.into hes
    obtain ⟨hkind, hget, k, hk⟩ := (Host.node_dirText_eq_ok_iff hnormal).mp hn
    refine ⟨?_, hget, hkind⟩
    have := hk.eq_append_of_withoutLinks hlinks (fun c hc => (hnormal.proper c hc).2)
    rwa [List.nil_append] at this
  induction ds using List.reverseRecOn generalizing l n with
  | nil => exact List.nodup_singleton _
  | append_singleton ds d ih =>
    have hds' : ∀ e ∈ ds, IsProper e := fun e he => hds e (List.mem_append_left _ he)
    obtain ⟨l', n', hn'⟩ := exists_node_of_append hb hds hn
    rw [wayTo_concat, List.map_append, List.map_singleton]
    refine List.nodup_append.mpr ⟨ih hds' hn', List.nodup_singleton _, ?_⟩
    intro i hi j hj heq
    obtain ⟨path, hpath, rfl⟩ := List.mem_map.mp hi
    obtain ⟨as, has, rfl⟩ := mem_wayTo_iff.mp hpath
    obtain ⟨bs, rfl⟩ := has
    have has' : ∀ e ∈ as, IsProper e := fun e he => hds' e (List.mem_append_left bs he)
    obtain ⟨m, k, hk⟩ := exists_node_of_append hb hds' hn'
    rw [List.mem_singleton.mp hj, inodeAt_pathOf hs hb has' hk, inodeAt_pathOf hs hb hds hn] at heq
    obtain ⟨rfl, hget₁, hdir₁⟩ := hplace has' hk
    obtain ⟨rfl, hget₂, hdir₂⟩ := hplace hds hn
    have hsame := hs.regular.inodes hget₁ hget₂ hdir₁ hdir₂ (Option.some.inj heq)
    have hlength := congrArg List.length hsame
    simp at hlength

omit hs in
/-- A directory is found under its name in the one that holds it. -/
theorem node_of_concat (hds : ∀ d ∈ ds ++ [name], IsProper d)
    (hn : h.files.node true (pathOf b (ds ++ [name])) = .ok (l, n)) :
    h.files.node true (pathOf b ds ++ name) = .ok (l, n) ∧ n.kind = .directory := by
  have hbase : (b.into ds).IsNormal := hb.into (fun d hd => hds d (List.mem_append_left _ hd))
  have hname : IsProper name := hds name (by simp)
  rw [pathOf_eq] at hn ⊢
  obtain ⟨hkind, hget, k, hk⟩ := (Host.node_dirText_eq_ok_iff (hb.into hds)).mp hn
  rw [Pathname.into_append] at hk
  exact ⟨(Host.node_true_eq_ok_iff hbase hname.1).mpr ⟨hget, k, hk⟩, hkind⟩

/-- What exists in a directory is in its list. -/
theorem exists_list_of_node (hds : ∀ d ∈ ds, IsProper d) (hname : IsProper name)
    (hn : h.files.node true (pathOf b ds ++ name) = .ok (l, n)) :
    ∃ names, h.list (pathOf b ds) = .ok names ∧ name ∈ names := by
  have hbase := hb.into hds
  rw [pathOf_eq] at hn ⊢
  obtain ⟨-, k, hk⟩ := (Host.node_true_eq_ok_iff hbase hname.1).mp hn
  obtain ⟨k₁, d, -, h₁, hd, -⟩ := Host.exists_get?_of_leads_concat hname hk
  have hlist := (hs.list_eq_ok_iff hbase).mpr ⟨k₁, d, h₁, hd, rfl⟩
  exact ⟨_, hlist, Host.mem_of_node hbase hname hlist hn⟩

end

/-! ## Directories that are entered -/

section
variable {l : Location} {n : Node} (hs : h.Sound) (hb : b.IsNormal)
  (hlinks : c.followLinks = true ∨ h.files.WithoutLinks)
include hs hb hlinks

omit hs in
/-- If links are followed or there are none, it is found the same whether or not a last link is
followed. -/
theorem node_followLinks_eq_ok_iff (hds : ∀ d ∈ ds, IsProper d) (hname : IsProper name) :
    h.files.node c.followLinks (pathOf b ds ++ name) = .ok (l, n) ↔
      h.files.node true (pathOf b ds ++ name) = .ok (l, n) := by
  cases hf : c.followLinks with
  | true => rfl
  | false =>
    have hnone := hlinks.resolve_left (by simp [hf])
    rw [pathOf_eq]
    exact Host.node_false_eq_ok_iff_of_withoutLinks hnone (hb.into hds) hname

/-- The directories on the way to one that is entered are different ones. -/
theorem Entered.nodup_inodes (he : Entered h c b p₀ ds inodes) (hds : ∀ d ∈ ds, IsProper d)
    (hn : h.files.node true (pathOf b ds) = .ok (l, n)) :
    ((wayTo b ds).map h.inodeAt).Nodup := by
  rcases hlinks with hf | hnone
  · obtain ⟨heq, hnodup⟩ := he.inodes_eq hs hb hf
    rw [← List.nodup_reverse, ← heq]
    exact hnodup.map (fun _ _ => Option.some.inj)
  · exact nodup_inodes_of_withoutLinks hs hb hnone hds hn

omit hlinks in
/-- The chain to a directory closes only if it is one of those above it. -/
theorem exists_chain_eq (hds : ∀ d ∈ ds, IsProper d)
    (hn : h.files.node true (pathOf b ds) = .ok (l, n))
    (hnew : c.followLinks = true → n.inode ∉ above) :
    ∃ inodes, chain h c (pathOf b ds) above = .ok (some inodes) := by
  cases hf : c.followLinks with
  | true =>
    have hstat := (hs.stat_eq_ok_iff (head?_pathOf hb hds)).mpr ⟨l, hn⟩
    refine ⟨n.inode :: above, chain_eq_ok_some_iff.mpr ?_⟩
    rw [if_pos hf]
    exact ⟨n, hstat, hnew hf, rfl⟩
  | false => exact ⟨above, chain_eq_ok_some_iff.mpr (by simp [hf])⟩

/-- An enumeration gets to a directory that exists if it and those above it are allowed and no two
of them are the same one. -/
theorem exists_entered (hds : ∀ d ∈ ds, IsProper d)
    (hn : h.files.node true (pathOf b ds) = .ok (l, n)) (hway : p₀.AllowsWay h b ds)
    (hnodup : ((wayTo b ds).map h.inodeAt).Nodup) : ∃ inodes, Entered h c b p₀ ds inodes := by
  induction ds using List.reverseRecOn generalizing l n with
  | nil =>
    obtain ⟨inodes, hchain⟩ : ∃ inodes, chain h c (pathOf b []) [] = .ok (some inodes) :=
      exists_chain_eq hs hb hds hn (fun _ => List.not_mem_nil)
    exact ⟨inodes, .root hchain⟩
  | append_singleton ds d ih =>
    have hds' : ∀ e ∈ ds, IsProper e := fun e he => hds e (List.mem_append_left _ he)
    have hd : IsProper d := hds d (by simp)
    obtain ⟨l', n', hn'⟩ := exists_node_of_append hb hds hn
    obtain ⟨hway', hallow⟩ := Policy.allowsWay_concat_iff.mp hway
    rw [wayTo_concat, List.map_append, List.map_singleton, List.nodup_append] at hnodup
    obtain ⟨hnodup', -, hnew⟩ := hnodup
    obtain ⟨above, he⟩ := ih hds' hn' hway' hnodup'
    -- the directory is met in the one above it, and bears a number that is not held there
    obtain ⟨hnode, hkind⟩ := node_of_concat hb hds hn
    obtain ⟨names, hlist, hname⟩ := exists_list_of_node hs hb hds' hd hnode
    have hdir : h.isDirectory c.followLinks (pathOf b ds ++ d) = .ok true :=
      (hs.isDirectory_eq_ok_iff (head?_pathOf_append hb hds' d)).mpr
        ⟨l, n, (node_followLinks_eq_ok_iff hb hlinks hds' hd).mpr hnode, by simp [hkind]⟩
    have hinode : c.followLinks = true → n.inode ∉ above := by
      intro hf hmem
      have heq := (he.inodes_eq hs hb hf).1
      refine hnew (some n.inode) ?_ _ (List.mem_singleton_self _)
        (inodeAt_pathOf hs hb hds hn).symm
      rw [← List.mem_reverse, ← heq]
      exact List.mem_map_of_mem hmem
    obtain ⟨inodes, hchain⟩ := exists_chain_eq hs hb hds hn hinode
    exact ⟨inodes, .entry he hlist hname ((visitAt_eq_directory_iff hs).mpr ⟨hdir, hallow⟩) hchain⟩

/-- **A directory that exists is entered if it and those above it are allowed and no two of them
are the same one.** -/
theorem exists_entered_iff (hds : ∀ d ∈ ds, IsProper d)
    (hn : h.files.node true (pathOf b ds) = .ok (l, n)) :
    (∃ inodes, Entered h c b p₀ ds inodes) ↔
      p₀.AllowsWay h b ds ∧ ((wayTo b ds).map h.inodeAt).Nodup := by
  constructor
  · rintro ⟨inodes, he⟩
    exact ⟨he.allowsWay hs, he.nodup_inodes hs hb hlinks hds hn⟩
  · rintro ⟨hway, hnodup⟩
    exact exists_entered hs hb hlinks hds hn hway hnodup

end

end Walk
end PathFilter
