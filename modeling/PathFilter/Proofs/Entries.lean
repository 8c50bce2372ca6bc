import Mathlib.Data.List.Nodup
import PathFilter.Proofs.HostAccess

/-! # File systems that are built from entries

A file system is built by putting entries at paths, one after the other, or by removing some.
Whatever is built so from paths that lead down (`LeadsDown`) and from entries without injected
errors is in order: its names lead down, its nodes have inode numbers of their own, and it is calm
(`Numbered`, `Tidy.put`, `Tidy.remove`).  **So a host with such files is a sound one**
(`Host.sound_of_ofEntries`).
-/

namespace PathFilter
namespace FileSystem
variable {fs : FileSystem} {l : Location} {e : Entry} {path : Text}

/-- Each node has an inode number of its own, and the numbers given so far are used up. -/
structure Numbered (fs : FileSystem) : Prop where
  nodup : (fs.nodes.map (·.2.inode)).Nodup
  below : ∀ e ∈ fs.nodes, e.2.inode < fs.nextInode

/-- A file system that has been built from entries without injected errors, at paths that lead
down. -/
structure Tidy (fs : FileSystem) : Prop where
  proper : ∀ e ∈ fs.nodes, ∀ c ∈ e.1, Path.IsProper c
  numbered : fs.Numbered
  calm : fs.Calm

/-- A path each name of which leads down. -/
def LeadsDown (path : Text) : Prop := ∀ c ∈ locationOf path, Path.IsProper c

instance (path : Text) : Decidable (LeadsDown path) := inferInstanceAs (Decidable (∀ c ∈ _, _))

/-! ## Nodes -/

theorem tidy_empty : Tidy empty where
  proper := by
    intro e he
    rw [List.mem_singleton.mp he]
    exact fun c hc => absurd hc List.not_mem_nil
  numbered := ⟨List.nodup_singleton 0, fun e he => by rw [List.mem_singleton.mp he]; decide⟩
  calm := by
    intro e he
    rw [List.mem_singleton.mp he]

theorem Tidy.add (hfs : fs.Tidy) (hl : ∀ c ∈ l, Path.IsProper c) (he : e.faults = {}) :
    (fs.add l e).Tidy where
  proper := by
    intro d hd
    rcases List.mem_cons.mp hd with rfl | hd
    · exact hl
    · exact hfs.proper d hd
  numbered := by
    refine ⟨?_, fun d hd => ?_⟩
    · refine List.nodup_cons.mpr ⟨fun hmem => ?_, hfs.numbered.nodup⟩
      obtain ⟨d, hd, hinode⟩ := List.mem_map.mp hmem
      have hlt := hfs.numbered.below d hd
      rw [hinode] at hlt
      exact Nat.lt_irrefl _ hlt
    · rcases List.mem_cons.mp hd with rfl | hd
      · exact Nat.lt_succ_self _
      · exact Nat.lt_succ_of_lt (hfs.numbered.below d hd)
  calm := by
    intro d hd
    rcases List.mem_cons.mp hd with rfl | hd
    · exact he
    · exact hfs.calm d hd

/-- Leaving nodes out keeps a file system tidy. -/
theorem Tidy.filter (hfs : fs.Tidy) (keep : Location × Node → Bool) :
    Tidy { fs with nodes := fs.nodes.filter keep } where
  proper := fun d hd => hfs.proper d (List.mem_of_mem_filter hd)
  numbered :=
    ⟨hfs.numbered.nodup.sublist (List.filter_sublist.map _),
      fun d hd => hfs.numbered.below d (List.mem_of_mem_filter hd)⟩
  calm := fun d hd => hfs.calm d (List.mem_of_mem_filter hd)

theorem Tidy.removeAt (hfs : fs.Tidy) (l : Location) : (fs.removeAt l).Tidy :=
  hfs.filter _

theorem Tidy.addDirectories (hfs : fs.Tidy) {names : List Text}
    (hl : ∀ c ∈ l, Path.IsProper c) (hnames : ∀ c ∈ names, Path.IsProper c) :
    (fs.addDirectories l names).Tidy := by
  induction names generalizing fs l with
  | nil => exact hfs
  | cons name rest ih =>
    cases rest with
    | nil => exact hfs
    | cons second rest =>
      have hl' : ∀ c ∈ l ++ [name], Path.IsProper c := by
        intro c hc
        rcases List.mem_append.mp hc with hc | hc
        · exact hl c hc
        · exact List.mem_singleton.mp hc ▸ hnames name List.mem_cons_self
      rw [FileSystem.addDirectories]
      · refine ih ?_ hl' (fun c hc => hnames c (List.mem_cons_of_mem name hc))
        split
        · exact hfs
        · exact hfs.add hl' rfl
      · exact List.cons_ne_nil second rest

/-- Replacing what is at a location, under the inode number that it has, keeps a file system
tidy. -/
theorem Tidy.replace (hfs : fs.Tidy) (hl : ∀ c ∈ l, Path.IsProper c) {n : Node}
    (hn : fs.get? l = some n) (he : e.faults = {}) :
    Tidy { fs with
      nodes := (l, { e with inode := n.inode }) :: fs.nodes.filter fun (k, _) => k ≠ l } where
  proper := by
    intro d hd
    rcases List.mem_cons.mp hd with rfl | hd
    · exact hl
    · exact hfs.proper d (List.mem_of_mem_filter hd)
  numbered := by
    have hmem := mem_nodes_of_get? hn
    refine ⟨List.nodup_cons.mpr ⟨fun hinode => ?_, ?_⟩, fun d hd => ?_⟩
    · -- another node of the same number would be the one that is replaced
      obtain ⟨d, hd, hinode⟩ := List.mem_map.mp hinode
      obtain ⟨hd, hne⟩ := List.mem_filter.mp hd
      have heq := List.inj_on_of_nodup_map hfs.numbered.nodup hd hmem hinode
      rw [heq] at hne
      simp at hne
    · exact hfs.numbered.nodup.sublist (List.filter_sublist.map _)
    · rcases List.mem_cons.mp hd with rfl | hd
      · have hlt : n.inode < fs.nextInode := hfs.numbered.below (l, n) hmem
        exact hlt
      · exact hfs.numbered.below d (List.mem_of_mem_filter hd)
  calm := by
    intro d hd
    rcases List.mem_cons.mp hd with rfl | hd
    · exact he
    · exact hfs.calm d (List.mem_of_mem_filter hd)

/-! ## Entries -/

/-- **Putting an entry keeps a file system tidy.** -/
theorem Tidy.put (hfs : fs.Tidy) (hpath : LeadsDown path) (he : e.faults = {}) :
    (fs.put path e).Tidy := by
  have hdirs : (fs.addDirectories [] (locationOf path)).Tidy :=
    hfs.addDirectories (fun c hc => absurd hc List.not_mem_nil) hpath
  rw [FileSystem.put, putAt]
  simp only
  split
  · rename_i inode _ hn
    exact hdirs.replace hpath hn he
  · exact (hdirs.removeAt _).add hpath he

/-- Removing an entry keeps a file system tidy. -/
theorem Tidy.remove (hfs : fs.Tidy) (path : Text) : (fs.remove path).Tidy :=
  hfs.removeAt _

/-- A file system that is built from entries is tidy. -/
theorem tidy_ofEntries {entries : List (Text × Entry)}
    (hentries : ∀ e ∈ entries, LeadsDown e.1 ∧ e.2.faults = {}) : (ofEntries entries).Tidy := by
  have hfs := tidy_empty
  rw [ofEntries]
  -- what has been put so far may be any tidy file system
  generalize empty = fs at *
  induction entries generalizing fs with
  | nil => exact hfs
  | cons entry rest ih =>
    obtain ⟨hpath, hfaults⟩ := hentries entry List.mem_cons_self
    exact ih (fun e he => hentries e (List.mem_cons_of_mem entry he)) _ (hfs.put hpath hfaults)

/-- Names in a tidy file system lead down, and inode numbers tell directories apart. -/
theorem Tidy.regular (hfs : fs.Tidy) : fs.Regular where
  proper := hfs.proper
  inodes h₁ h₂ _ _ hinode := congrArg Prod.fst
    (List.inj_on_of_nodup_map hfs.numbered.nodup (mem_nodes_of_get? h₁) (mem_nodes_of_get? h₂)
      hinode)

end FileSystem

/-- **A host whose files are built from entries without injected errors is sound.** -/
theorem Host.sound_of_ofEntries {h : Host} {entries : List (Text × Entry)}
    (hcwd : h.cwd.head? = some '/') (hfiles : h.files = .ofEntries entries)
    (hentries : ∀ e ∈ entries, FileSystem.LeadsDown e.1 ∧ e.2.faults = {}) : h.Sound := by
  have htidy := FileSystem.tidy_ofEntries hentries
  rw [← hfiles] at htidy
  exact ⟨hcwd, htidy.regular, htidy.calm⟩

end PathFilter
