import PathFilter.Filter.Walk
import PathFilter.Proofs.HostAccess

/-! # What is known without opening a file

Where a path leads, what is there and which names are in it is told without a look at the text of
any file.  It is told by the outline of the host, which leaves the texts out (`Host.outline`): each
such question has the same answer for a host and for its outline (`isDirectory_outline`,
`list_outline` and so on).

Hosts are alike but for one location if they have the same outline and the same nodes elsewhere
(`Host.AlikeBut`), so at most the text of the file at that location is a different one.  They answer
alike what their outlines tell (`AlikeBut.congr`), and **a path that does not lead to the location
is read alike** (`AlikeBut.readOr_eq`).

Where the file at a location cannot be opened (`Host.sealed`), what can be read is read in the same
way from all hosts that are alike but for it (`AlikeBut.readOr_of_sealed`).
-/

namespace PathFilter

/-! ## Nodes -/

namespace Node
variable {n m : Node}

/-- A node without the text of a file, and without the error that strikes when it is opened. -/
def outline (n : Node) : Node :=
  match n.kind with
  | .file _ => { n with kind := .file [], faults := { n.faults with opening := none } }
  | .directory | .link _ => n

/-- A node that cannot be opened if it is a file. -/
def sealed (n : Node) : Node :=
  match n.kind with
  | .file _ => { n with faults := { n.faults with opening := some (.other "EIO".toList) } }
  | .directory | .link _ => n

theorem outline_of_not_file (hn : ∀ bytes, n.kind ≠ .file bytes) : n.outline = n := by
  rw [outline]
  split
  · rename_i bytes hkind
    exact absurd hkind (hn bytes)
  · rfl
  · rfl

theorem sealed_of_not_file (hn : ∀ bytes, n.kind ≠ .file bytes) : n.sealed = n := by
  rw [sealed]
  split
  · rename_i bytes hkind
    exact absurd hkind (hn bytes)
  · rfl
  · rfl

theorem outline_sealed (n : Node) : n.sealed.outline = n.outline := by
  obtain ⟨⟨kind, faults⟩, inode⟩ := n
  cases kind <;> rfl

theorem inode_outline (n : Node) : n.outline.inode = n.inode := by
  obtain ⟨⟨kind, faults⟩, inode⟩ := n
  cases kind <;> rfl

theorem stat_outline (n : Node) : n.outline.faults.stat = n.faults.stat := by
  obtain ⟨⟨kind, faults⟩, inode⟩ := n
  cases kind <;> rfl

theorem kind_outline (n : Node) :
    n.outline.kind = match n.kind with | .file _ => .file [] | k => k := by
  obtain ⟨⟨kind, faults⟩, inode⟩ := n
  cases kind <;> rfl

theorem kind_outline_eq_directory_iff :
    n.outline.kind = .directory ↔ n.kind = .directory := by
  rw [kind_outline]
  cases n.kind <;> simp

/-- Nodes with one outline are the same one, unless they are files. -/
theorem eq_of_outline_eq (h : n.outline = m.outline) (hn : ∀ bytes, n.kind ≠ .file bytes) :
    n = m := by
  have hm : ∀ bytes, m.kind ≠ .file bytes := by
    intro bytes hkind
    have hkinds : n.outline.kind = m.outline.kind := congrArg (·.kind) h
    rw [outline_of_not_file hn, m.kind_outline, hkind] at hkinds
    exact hn [] hkinds
  rwa [outline_of_not_file hn, outline_of_not_file hm] at h

end Node

/-! ## File systems -/

/-- What is found under a key among values that have been changed, is what has been found there,
changed. -/
theorem lookup_map_snd {α β γ : Type} [BEq α] [LawfulBEq α] (f : α → β → γ) (a : α)
    (l : List (α × β)) :
    (l.map fun e => (e.1, f e.1 e.2)).lookup a = (l.lookup a).map (f a) := by
  induction l with
  | nil => rfl
  | cons e l ih =>
    rw [List.map_cons, List.lookup_cons, List.lookup_cons, ih]
    by_cases h : a = e.1
    · subst h
      simp
    · rw [beq_false_of_ne h]

namespace FileSystem
variable {fs : FileSystem} {followLast : Bool} {k : Nat} {l : Location} {ns : List Text}
  {path : Text}

/-- A file system without the texts of its files. -/
def outline (fs : FileSystem) : FileSystem :=
  { fs with nodes := fs.nodes.map fun e => (e.1, e.2.outline) }

/-- A file system with a file at a location that cannot be opened. -/
def sealed (l : Location) (fs : FileSystem) : FileSystem :=
  { fs with nodes := fs.nodes.map fun e => (e.1, if e.1 = l then e.2.sealed else e.2) }

theorem get?_outline (fs : FileSystem) (l : Location) :
    fs.outline.get? l = (fs.get? l).map Node.outline :=
  lookup_map_snd (fun _ n => Node.outline n) l fs.nodes

theorem get?_sealed (fs : FileSystem) (l : Location) :
    (fs.sealed l).get? l = (fs.get? l).map Node.sealed := by
  have h := lookup_map_snd (fun k n => if k = l then Node.sealed n else n) l fs.nodes
  simp only [if_true] at h
  exact h

theorem outline_sealed (l : Location) (fs : FileSystem) : (fs.sealed l).outline = fs.outline := by
  have hnode : ∀ e : Location × Node,
      (if e.1 = l then e.2.sealed else e.2).outline = e.2.outline := by
    intro e
    split
    · exact e.2.outline_sealed
    · rfl
  rw [outline, outline, sealed, List.map_map]
  congr 1
  exact List.map_congr_left (fun e _ => congrArg (e.1, ·) (hnode e))

/-- **Names lead to the same location in the outline.** -/
theorem locateFrom_outline :
    fs.outline.locateFrom followLast k l ns = fs.locateFrom followLast k l ns := by
  induction k, ns using lookup_induction generalizing l with
  | hnil k => rw [locateFrom_nil, locateFrom_nil]
  | hcons k name ns ihns ihk =>
    have hdir : (fs.outline.get? l).all (·.kind ≠ .directory) =
        (fs.get? l).all (·.kind ≠ .directory) := by
      rw [get?_outline]
      cases fs.get? l with
      | none => rfl
      | some n => simp [Node.kind_outline_eq_directory_iff]
    rw [locateFrom_cons, locateFrom_cons, hdir, ihns, ihns, get?_outline]
    cases fs.get? (l ++ [name]) with
    | none => rfl
    | some n =>
      obtain ⟨⟨kind, faults⟩, inode⟩ := n
      cases kind with
      | file bytes => simp only [Option.map_some, Node.outline, ihns]
      | directory => simp only [Option.map_some, Node.outline, ihns]
      | link target =>
        cases k with
        | zero => rfl
        | succ k => simp only [Option.map_some, Node.outline, ihk k _ rfl]

theorem locate_outline : fs.outline.locate followLast path = fs.locate followLast path := by
  rw [locate, locate, locateFrom_outline]

theorem node_outline : fs.outline.node followLast path =
    (fs.node followLast path).map fun e => (e.1, e.2.outline) := by
  rw [node, node, locate_outline]
  cases fs.locate followLast path with
  | error e => rfl
  | ok l =>
    simp only [bind, Except.bind]
    rw [get?_outline]
    cases fs.get? l <;> rfl

theorem stat_outline : fs.outline.stat followLast path =
    (fs.stat followLast path).map Node.outline := by
  rw [stat, stat, node_outline]
  cases fs.node followLast path with
  | error e => rfl
  | ok found =>
    show (do raise found.2.outline.faults.stat; return found.2.outline : Except Errno Node) =
      Except.map Node.outline (do raise found.2.faults.stat; return found.2)
    rw [Node.stat_outline]
    cases found.2.faults.stat <;> rfl

theorem childrenAt_outline (l : Location) : fs.outline.childrenAt l = fs.childrenAt l := by
  rw [childrenAt, childrenAt, outline, List.filterMap_map]
  rfl

theorem list_outline : fs.outline.list path = fs.list path := by
  rw [list, list, node_outline]
  cases fs.node true path with
  | error e => rfl
  | ok found =>
    obtain ⟨l, ⟨⟨kind, faults⟩, inode⟩⟩ := found
    cases kind with
    | file bytes => rfl
    | link target => rfl
    | directory =>
      show (do raise faults.listing; return fs.outline.childrenAt l : Except Errno (List Text)) = _
      rw [childrenAt_outline]
      rfl

theorem directoryCount_outline (fs : FileSystem) :
    fs.outline.directoryCount = fs.directoryCount := by
  rw [directoryCount, directoryCount, outline, List.countP_map]
  congr 1
  funext e
  simp [Node.kind_outline_eq_directory_iff]

end FileSystem

/-! ## Hosts -/

/-- What is found under a key that is not left out. -/
theorem lookup_filter_of_key {α β : Type} [BEq α] [LawfulBEq α] {p : α → Bool} {a : α}
    (ha : p a = true) (l : List (α × β)) : (l.filter fun e => p e.1).lookup a = l.lookup a := by
  induction l with
  | nil => rfl
  | cons e l ih =>
    by_cases h : a = e.1
    · subst h
      rw [List.filter_cons_of_pos (p := fun e : α × β => p e.1) ha, List.lookup_cons,
        List.lookup_cons, beq_self_eq_true]
    · rw [List.lookup_cons, beq_false_of_ne h, ← ih, List.filter_cons]
      split
      · rw [List.lookup_cons, beq_false_of_ne h]
      · rfl

namespace Host
variable {h h' : Host} {followLast : Bool} {path : Text} {l : Location}

/-- A host without the texts of its files. -/
def outline (h : Host) : Host := { h with files := h.files.outline }

/-- A host with a file at a location that cannot be opened. -/
def sealed (l : Location) (h : Host) : Host := { h with files := h.files.sealed l }

theorem stat_outline : h.outline.stat followLast path = (h.stat followLast path).map Node.outline :=
  FileSystem.stat_outline

theorem isDirectory_outline :
    h.outline.isDirectory followLast path = h.isDirectory followLast path := by
  rw [isDirectory, isDirectory, stat_outline]
  cases h.stat followLast path with
  | error e => rfl
  | ok n => simp [Except.map, Node.kind_outline_eq_directory_iff]

theorem present_outline : h.outline.present path = h.present path := by
  rw [present, present, stat_outline]
  cases h.stat true path <;> rfl

theorem hasFile_outline : h.outline.hasFile path = h.hasFile path := by
  rw [hasFile, hasFile, stat_outline]
  cases h.stat true path with
  | error e => rfl
  | ok n =>
    obtain ⟨⟨kind, faults⟩, inode⟩ := n
    cases kind <;> rfl

theorem hasDirectory_outline : h.outline.hasDirectory path = h.hasDirectory path := by
  rw [hasDirectory, hasDirectory, stat_outline]
  cases h.stat true path with
  | error e => rfl
  | ok n =>
    obtain ⟨⟨kind, faults⟩, inode⟩ := n
    cases kind <;> rfl

theorem list_outline : h.outline.list path = h.list path :=
  FileSystem.list_outline

/-- **What the outline tells is the same for hosts with one outline.** -/
theorem congr_of_outline_eq (ha : h.outline = h'.outline) {α : Type} {F : Host → α}
    (hF : ∀ h : Host, F h.outline = F h) : F h = F h' := by
  rw [← hF h, ha, hF h']

/-- Hosts that are the same but for the text of the file at a location, if one is there, and but
for an error in opening it. -/
structure AlikeBut (l : Location) (h h' : Host) : Prop where
  outline : h.outline = h'.outline
  elsewhere : h.files.nodes.filter (·.1 ≠ l) = h'.files.nodes.filter (·.1 ≠ l)

theorem AlikeBut.refl (l : Location) (h : Host) : h.AlikeBut l h := ⟨rfl, rfl⟩

theorem alikeBut_sealed (l : Location) (h : Host) : h.AlikeBut l (h.sealed l) := by
  refine ⟨?_, ?_⟩
  · rw [outline, outline, sealed]
    exact congrArg (fun fs => { h with files := fs }) (FileSystem.outline_sealed l h.files).symm
  · show _ = (h.files.nodes.map fun e => (e.1, if e.1 = l then e.2.sealed else e.2)).filter _
    rw [List.filter_map]
    refine Eq.trans (List.map_id _).symm (List.map_congr_left (fun e he => ?_))
    have hne : e.1 ≠ l := of_decide_eq_true (List.mem_filter.mp he).2
    rw [if_neg hne]
    rfl

namespace AlikeBut
variable (ha : h.AlikeBut l h')
include ha

theorem symm : h'.AlikeBut l h := ⟨ha.outline.symm, ha.elsewhere.symm⟩

theorem trans {h'' : Host} (ha' : h'.AlikeBut l h'') : h.AlikeBut l h'' :=
  ⟨ha.outline.trans ha'.outline, ha.elsewhere.trans ha'.elsewhere⟩

/-- What the outline tells is the same for hosts that are alike. -/
theorem congr {α : Type} {F : Host → α} (hF : ∀ h : Host, F h.outline = F h) : F h = F h' :=
  congr_of_outline_eq ha.outline hF

theorem get?_eq {k : Location} (hne : k ≠ l) : h.files.get? k = h'.files.get? k := by
  have hkey : decide (k ≠ l) = true := decide_eq_true hne
  have hlookup := congrArg (List.lookup k) ha.elsewhere
  rwa [lookup_filter_of_key (p := fun k => decide (k ≠ l)) hkey,
    lookup_filter_of_key (p := fun k => decide (k ≠ l)) hkey] at hlookup

/-- A path leads to the same location, where nodes with one outline are. -/
theorem map_node_eq (followLast : Bool) (path : Text) :
    (h.files.node followLast path).map (fun e => (e.1, e.2.outline)) =
    (h'.files.node followLast path).map fun e => (e.1, e.2.outline) := by
  rw [← FileSystem.node_outline, ← FileSystem.node_outline]
  exact congrArg (fun h : Host => h.files.node followLast path) ha.outline

/-- A path leads to the same node, unless it leads to a file at the location. -/
theorem node_eq (hne : ∀ n bytes, h.files.node followLast path = .ok (l, n) →
    n.kind ≠ .file bytes) : h.files.node followLast path = h'.files.node followLast path := by
  have hmap := ha.map_node_eq followLast path
  cases hn : h.files.node followLast path with
  | error e =>
    rw [hn] at hmap
    cases hn' : h'.files.node followLast path with
    | error e' =>
      rw [hn'] at hmap
      cases hmap
      rfl
    | ok found => rw [hn'] at hmap; cases hmap
  | ok found =>
    obtain ⟨k, n⟩ := found
    rw [hn] at hmap
    obtain ⟨⟨k', n'⟩, hn', heq⟩ := map_eq_ok_iff.mp hmap.symm
    obtain ⟨rfl, houtline⟩ := Prod.mk.inj heq
    have hsame : n = n' := by
      by_cases hk : k' = l
      · subst hk
        exact Node.eq_of_outline_eq houtline.symm (fun bytes => hne n bytes hn)
      · have hget := ha.get?_eq hk
        rw [(FileSystem.node_eq_ok_iff.mp hn).2, (FileSystem.node_eq_ok_iff.mp hn').2] at hget
        exact Option.some.inj hget
    rw [hn', hsame]

/-- **A path that does not lead to the file is read alike.** -/
theorem readOr_eq {α : Type} {absent : α} {use : Text → α}
    (hne : ∀ n bytes, h.files.node true (h.fromCwd path) = .ok (l, n) → n.kind ≠ .file bytes) :
    h.readOr path absent use = h'.readOr path absent use := by
  have hpath : h.fromCwd path = h'.fromCwd path := ha.congr (F := (·.fromCwd path)) (fun _ => rfl)
  rw [readOr, readOr, readText, readText, FileSystem.read, FileSystem.read, ha.node_eq hne, hpath]

/-- **What is read where the file cannot be opened is read in the same way where it can.** -/
theorem readOr_of_sealed {α : Type} {absent a : α} {use : Text → α}
    (hread : (h.sealed l).readOr path absent use = .ok a) : h'.readOr path absent use = .ok a := by
  rw [← hread]
  refine (((h.alikeBut_sealed l).symm.trans ha).readOr_eq fun n bytes hn hkind => ?_).symm
  -- otherwise the file would have been opened
  obtain ⟨m, -, rfl⟩ : ∃ m, h.files.get? l = some m ∧ m.sealed = n := by
    have hget : (h.files.sealed l).get? l = some n := (FileSystem.node_eq_ok_iff.mp hn).2
    rwa [FileSystem.get?_sealed, Option.map_eq_some_iff] at hget
  have hfault : m.sealed.faults.opening = some (.other "EIO".toList) := by
    by_cases hm : ∀ bytes, m.kind ≠ .file bytes
    · rw [Node.sealed_of_not_file hm] at hkind
      exact absurd hkind (hm bytes)
    · obtain ⟨bytes', hm⟩ := not_forall_not.mp hm
      rw [Node.sealed, hm]
  have herror : (h.sealed l).readText path = .error (.other "EIO".toList) := by
    rw [readText, FileSystem.read, hn]
    show Except.map _ (do
      FileSystem.raise m.sealed.faults.opening
      match m.sealed.kind with
      | .file bytes => return bytes
      | .directory => throw .isDirectory
      | .link _ => throw .linkLoop) = _
    rw [hfault]
    rfl
  rw [readOr, herror] at hread
  cases hread

end AlikeBut
end Host

/-! ## Enumerations -/

namespace Walk
variable {h : Host} {c : Config} {directory : Text} {above : List Nat}

theorem chain_outline : chain h.outline c directory above = chain h c directory above := by
  rw [chain, chain, Host.stat_outline]
  split
  · cases h.stat true directory with
    | error e => rfl
    | ok n => simp [Except.map, Node.inode_outline]
  · rfl

theorem contents_outline : contents h.outline c directory above = contents h c directory above := by
  rw [contents, contents, chain_outline, Host.list_outline]

theorem roomFor_outline (h : Host) : roomFor h.outline = roomFor h :=
  congrArg (· + 1) (FileSystem.directoryCount_outline h.files)

end Walk
end PathFilter
