import PathFilter.Proofs.Reach

/-! # Iterations turn by turn

An iteration is one recursion over the directories below a root, with a bound to its depth.  Here it
is taken apart into turns (`Walk.turn`): the first one enters the root, and each of the others
visits a name, and enters what bears it if that is a directory, or leaves a directory all names of
which have been visited.  Nothing bounds how many turns there are and how deep they get, and what is
loaded may be anything else at each turn (`Walk.Course`).  The files stay the same, and any errors
may be injected.

* All that a turn can be is said once (`Turns`), and used for all that follows.
* **The directories that an iteration is inside of are different ones** (`Nested`), told apart by
  their inode numbers where links are followed.  So they are no more than there are directories
  (`Nested.length_le`, `Nested.nodup_inodes`).
* What is pending, weighed by how deep it can still get, becomes less with each turn
  (`cost_lt_of_turns`).  **So there is a number of turns that no iteration takes more than**
  (`Course.le_turnLimit`).
-/

namespace PathFilter

/-! ## How long lists of names are -/

theorem Text.length_insertSorted_le (t : Text) (ts : List Text) :
    (insertSorted t ts).length ≤ ts.length + 1 := by
  induction ts with
  | nil => exact Nat.le_refl 1
  | cons s ts ih =>
    rw [insertSorted]
    split
    · exact Nat.le_succ _
    split
    · exact Nat.le_refl _
    · exact Nat.succ_le_succ ih

theorem Text.length_sort_le (ts : List Text) : (sort ts).length ≤ ts.length := by
  induction ts with
  | nil => exact Nat.le_refl 0
  | cons t ts ih => exact (length_insertSorted_le t (sort ts)).trans (Nat.succ_le_succ ih)

/-- A directory holds no more names than the file system has nodes. -/
theorem FileSystem.length_childrenAt_le (fs : FileSystem) (l : Location) :
    (fs.childrenAt l).length ≤ fs.nodes.length :=
  (Text.length_sort_le _).trans (List.length_filterMap_le _ _)

namespace Walk
open PathFilter.Path FileSystem

/-! ## Turns -/

/-- What a turn comes to: the file that is found, if one is, the policy that it leaves, and where
the iteration stands then. -/
structure Turn where
  found : Option Text
  policy : Policy
  walk : Walk

section
variable (h : Host) (c : Config) (root : Text) (p : Policy)

/-- The turn that enters a directory from others. If it is not to be entered, these are left as they
are. -/
def turnInto (directory relative : Text) (above : List Nat) (outer : List Frame) :
    Except Errno Turn :=
  (openDirectory h c directory relative above p).map fun
    | none => ⟨none, p, .inside outer⟩
    | some (f, p) => ⟨none, p, .inside (f :: outer)⟩

/-- The turn that visits a name in the directory of a frame, by what is done with it. -/
def turnAt (f : Frame) (name : Text) (outer : List Frame) : Visit → Except Errno Turn
  | .pass => .ok ⟨none, p, .inside outer⟩
  | .file path => .ok ⟨some path, p, .inside outer⟩
  | .directory =>
    turnInto h c p (f.directory ++ name ++ ['/']) (f.relative ++ name ++ ['/']) f.inodes outer

/-- The next turn of an iteration, unless that has come to its end. -/
def turn : Walk → Except Errno (Option Turn)
  | .unstarted => (turnInto h c p root [] [] []).map some
  | .inside [] => .ok none
  | .inside (f :: outer) =>
    match f.pending with
    | [] => .ok (some ⟨none, p, .inside outer⟩)
    | name :: rest => do
      let v ← visit h c p f name
      (turnAt h c p f name ({ f with pending := rest } :: outer) v).map some

/-- All that a turn can be. -/
inductive Turns : Walk → Turn → Prop where
  | begin {t : Turn} : turnInto h c p root [] [] [] = .ok t → Turns .unstarted t
  | leave {f : Frame} {outer : List Frame} : f.pending = [] →
      Turns (.inside (f :: outer)) ⟨none, p, .inside outer⟩
  | visit {f : Frame} {outer : List Frame} {name : Text} {rest : List Text} (found : Option Text) :
      f.pending = name :: rest →
        Turns (.inside (f :: outer)) ⟨found, p, .inside ({ f with pending := rest } :: outer)⟩
  | enter {f g : Frame} {outer : List Frame} {name : Text} {rest : List Text} {p' : Policy} :
      f.pending = name :: rest → Walk.visit h c p f name = .ok .directory →
      openDirectory h c (f.directory ++ name ++ ['/']) (f.relative ++ name ++ ['/']) f.inodes p =
        .ok (some (g, p')) →
        Turns (.inside (f :: outer)) ⟨none, p', .inside (g :: { f with pending := rest } :: outer)⟩

end

section
variable (h : Host) (c : Config) (root : Text)

/-- Where an iteration can stand after a number of turns, and what it has found in them. At each
turn any rules may be loaded. -/
inductive Course : Nat → Walk → List Text → Prop where
  | start : Course 0 .unstarted []
  | turn {n : Nat} {w : Walk} {found : List Text} {p : Policy} {t : Turn} : Course n w found →
      turn h c root p w = .ok (some t) → Course (n + 1) t.walk (found ++ t.found.toList)

end

variable {h : Host} {c : Config} {b : Pathname} {root : Text} {p p' : Policy} {w : Walk} {t : Turn}
  {ds : List Text} {name : Text} {f g : Frame} {outer frames : List Frame}

theorem turnInto_eq_ok {directory relative : Text} {above : List Nat}
    (hinto : turnInto h c p directory relative above outer = .ok t) :
    t = ⟨none, p, .inside outer⟩ ∨
      ∃ g p', openDirectory h c directory relative above p = .ok (some (g, p')) ∧
        t = ⟨none, p', .inside (g :: outer)⟩ := by
  obtain ⟨opened, hopened, rfl⟩ := map_eq_ok_iff.mp hinto
  match opened, hopened with
  | none, _ => exact .inl rfl
  | some (g, p'), hopened => exact .inr ⟨g, p', hopened, rfl⟩

theorem turns_of_turn (hturn : turn h c root p w = .ok (some t)) : Turns h c root p w t := by
  match w with
  | .unstarted =>
    obtain ⟨t, hinto, heq⟩ := map_eq_ok_iff.mp hturn
    cases heq
    exact .begin hinto
  | .inside [] => cases hturn
  | .inside (f :: outer) =>
    rw [turn] at hturn
    split at hturn
    · rename_i hpending
      cases hturn
      exact .leave hpending
    · rename_i name rest hpending
      obtain ⟨v, hv, hturn⟩ := bind_eq_ok_iff.mp hturn
      obtain ⟨t', hat, heq⟩ := map_eq_ok_iff.mp hturn
      cases heq
      cases v with
      | pass =>
        cases hat
        exact .visit none hpending
      | file path =>
        cases hat
        exact .visit (some path) hpending
      | directory =>
        rcases turnInto_eq_ok hat with rfl | ⟨g, p', hopen, rfl⟩
        · exact .visit none hpending
        · exact .enter hpending hv hopen

/-- A name is entered if it bears a directory. -/
theorem isDirectory_of_visit (hv : visit h c p f name = .ok .directory) :
    h.isDirectory c.followLinks (f.directory ++ name) = .ok true := by
  obtain ⟨found, hfound, hv⟩ := bind_eq_ok_iff.mp hv
  cases found with
  | none => cases hv
  | some isDir =>
    change visitKind h c p f name isDir = .ok .directory at hv
    rw [visitKind_eq_map] at hv
    obtain ⟨read, -, hread⟩ := map_eq_ok_iff.mp hv
    cases isDir with
    | true => exact orAbsent_eq_ok_some_iff.mp hfound
    | false => split at hread <;> cases hread

/-! ## Directories that an iteration is inside of -/

/-- A frame for the directory that names lead to from a base directory. -/
structure Placed (h : Host) (c : Config) (b : Pathname) (ds : List Text) (f : Frame) : Prop where
  directory : f.directory = pathOf b ds
  opened : Opened h c b ds f.inodes
  proper : ∀ n ∈ f.pending, IsProper n
  length_le : f.pending.length ≤ h.files.nodes.length

/-- Frames for a base directory and the directories on the way down from it, the innermost first. -/
inductive Nested (h : Host) (c : Config) (b : Pathname) : List Text → List Frame → Prop where
  | root {f : Frame} : Placed h c b [] f → chain h c f.directory [] = .ok (some f.inodes) →
      Nested h c b [] [f]
  | entry {ds : List Text} {name : Text} {f g : Frame} {outer : List Frame} :
      Nested h c b ds (f :: outer) → Placed h c b (ds ++ [name]) g →
      chain h c g.directory f.inodes = .ok (some g.inodes) →
        Nested h c b (ds ++ [name]) (g :: f :: outer)

/-- An iteration that is not inside of any directory, or inside of nested ones. -/
def Standing (h : Host) (c : Config) (b : Pathname) : Walk → Prop
  | .unstarted => True
  | .inside frames => frames = [] ∨ ∃ ds, Nested h c b ds frames

/-- A directory that is opened at the end of a chain has a frame. -/
theorem placed_of_openDirectory (hfs : h.files.Proper) (hb : b.IsNormal) {above : List Nat}
    {seen : List (Location × Node)} {relative : Text} (ht : Trail h c b ds above seen)
    (hopen : openDirectory h c (pathOf b ds) relative above p = .ok (some (g, p'))) :
    Placed h c b ds g ∧ chain h c g.directory above = .ok (some g.inodes) := by
  obtain ⟨inodes, names, hcontents, -, rfl⟩ := exists_of_openDirectory hopen
  obtain ⟨hchain, hlist⟩ := contents_eq_ok_some_iff.mp hcontents
  refine ⟨⟨rfl, ht.opened hb hcontents, fun n hn => isProper_of_mem_contents hfs hcontents hn, ?_⟩,
    hchain⟩
  obtain ⟨l, rfl⟩ := exists_childrenAt_of_list hlist
  exact length_childrenAt_le h.files l

namespace Nested

theorem placed (hn : Nested h c b ds (f :: outer)) : Placed h c b ds f := by
  cases hn with
  | root hf _ => exact hf
  | entry _ hf _ => exact hf

/-- A directory is left for the one that holds it. -/
theorem leave (hn : Nested h c b ds (f :: outer)) : Standing h c b (.inside outer) := by
  cases hn with
  | root _ _ => exact .inl rfl
  | entry hn _ _ => exact .inr ⟨_, hn⟩

/-- Names that have been visited are not pending any more. -/
theorem visit {rest : List Text} (hn : Nested h c b ds (f :: outer))
    (hrest : f.pending = name :: rest) : Nested h c b ds ({ f with pending := rest } :: outer) := by
  have hframe : ∀ {es}, Placed h c b es f → Placed h c b es { f with pending := rest } := by
    intro es hf
    refine ⟨hf.directory, hf.opened, fun n hn => hf.proper n ?_, ?_⟩
    · rw [hrest]
      exact List.mem_cons_of_mem name hn
    · have hle := hf.length_le
      rw [hrest] at hle
      exact (Nat.le_succ _).trans hle
  cases hn with
  | root hf hchain => exact .root (hframe hf) hchain
  | entry hn hf hchain => exact .entry hn (hframe hf) hchain

/-- **A directory is entered from the one that holds it.** -/
theorem enter (hfs : h.files.Proper) (hb : b.IsNormal) (hn : Nested h c b ds (f :: outer))
    (hname : IsProper name)
    (hdir : h.isDirectory c.followLinks (f.directory ++ name) = .ok true) {relative : Text}
    (hopen : openDirectory h c (f.directory ++ name ++ ['/']) relative f.inodes p =
      .ok (some (g, p'))) : Nested h c b (ds ++ [name]) (g :: f :: outer) := by
  rw [hn.placed.directory] at hdir hopen
  obtain ⟨seen, ht⟩ := hn.placed.opened.entry hname hdir
  rw [← pathOf_concat] at hopen
  obtain ⟨hg, hchain⟩ := placed_of_openDirectory hfs hb ht hopen
  exact .entry hn hg hchain

theorem length_eq (hn : Nested h c b ds frames) : frames.length = ds.length + 1 := by
  induction hn with
  | root _ _ => rfl
  | entry _ _ _ ih =>
    rw [List.length_cons, ih, List.length_append, List.length_singleton]

/-- **An iteration is inside of no more directories than there are.** -/
theorem length_le (hb : b.IsNormal) (hn : Nested h c b ds frames) :
    frames.length ≤ h.files.directoryCount := by
  rw [hn.length_eq]
  cases frames with
  | nil => cases hn
  | cons f outer => exact hn.placed.opened.length_lt hb

/-- **Where links are followed, the directories that an iteration is inside of have different inode
numbers**, which the innermost of its frames holds. -/
theorem nodup_inodes (hf : c.followLinks = true) (hn : Nested h c b ds (f :: outer)) :
    (f :: outer).map (h.inodeAt ·.directory) = f.inodes.map some ∧ f.inodes.Nodup := by
  have hchain : ∀ {directory : Text} {above inodes : List Nat},
      chain h c directory above = .ok (some inodes) →
        ∃ i, h.inodeAt directory = some i ∧ i ∉ above ∧ inodes = i :: above := by
    intro directory above inodes hchain
    rw [chain_eq_ok_some_iff, if_pos hf] at hchain
    obtain ⟨n, hstat, hnew, rfl⟩ := hchain
    refine ⟨n.inode, ?_, hnew, rfl⟩
    rw [Host.inodeAt, hstat]
    rfl
  generalize hframes : f :: outer = frames at hn
  induction hn generalizing f outer with
  | root _ hroot =>
    cases hframes
    obtain ⟨i, hi, -, hinodes⟩ := hchain hroot
    rw [hinodes]
    exact ⟨congrArg ([·]) hi, List.nodup_singleton i⟩
  | entry _ _ hentry ih =>
    cases hframes
    obtain ⟨i, hi, hnew, hinodes⟩ := hchain hentry
    obtain ⟨habove, hnodup⟩ := ih rfl
    rw [hinodes]
    exact ⟨congrArg₂ List.cons hi habove, List.nodup_cons.mpr ⟨hnew, hnodup⟩⟩

end Nested

/-- **Each turn leaves an iteration inside of nested directories.** -/
theorem Standing.turn (hfs : h.files.Proper) (hb : b.IsNormal) (hw : Standing h c b w)
    (ht : Turns h c b.dirText p w t) : Standing h c b t.walk := by
  cases ht with
  | begin hinto =>
    rcases turnInto_eq_ok hinto with rfl | ⟨g, p', hopen, rfl⟩
    · exact .inl rfl
    · rw [← pathOf_nil] at hopen
      obtain ⟨hg, hchain⟩ := placed_of_openDirectory hfs hb .root hopen
      exact .inr ⟨[], .root hg hchain⟩
  | leave _ =>
    obtain ⟨ds, hn⟩ := hw.resolve_left (List.cons_ne_nil _ _)
    exact hn.leave
  | visit found hrest =>
    obtain ⟨ds, hn⟩ := hw.resolve_left (List.cons_ne_nil _ _)
    exact .inr ⟨ds, hn.visit hrest⟩
  | enter hrest hv hopen =>
    obtain ⟨ds, hn⟩ := hw.resolve_left (List.cons_ne_nil _ _)
    have hname := hn.placed.proper _ (hrest ▸ List.mem_cons_self)
    exact .inr ⟨_, (hn.visit hrest).enter hfs hb hname (isDirectory_of_visit hv) hopen⟩

/-! ## How many turns there are -/

/-- The most turns that it takes to visit a name, in directories that hold no more than `breadth`
names each, where the directories below can get no deeper than `depth`. -/
def price (breadth : Nat) : Nat → Nat
  | 0 => 1
  | depth + 1 => breadth * price breadth depth + 2

/-- The most turns that frames can still take. -/
def costOf (h : Host) : List Frame → Nat
  | [] => 0
  | f :: outer =>
    f.pending.length *
      price h.files.nodes.length (h.files.directoryCount - (outer.length + 1)) + 1 + costOf h outer

/-- The most turns that an iteration takes. -/
def turnLimit (h : Host) : Nat :=
  price h.files.nodes.length h.files.directoryCount

/-- The most turns that an iteration can still take. -/
def cost (h : Host) : Walk → Nat
  | .unstarted => turnLimit h
  | .inside frames => costOf h frames

theorem price_pos (breadth depth : Nat) : 0 < price breadth depth := by
  cases depth with
  | zero => exact Nat.zero_lt_one
  | succ depth => exact Nat.succ_pos _

/-- Visiting all names of a directory, and leaving it, takes less turns than its price. -/
theorem length_mul_price_lt {length breadth : Nat} (hle : length ≤ breadth) (depth : Nat) :
    length * price breadth depth + 1 < price breadth (depth + 1) := by
  have hmul : length * price breadth depth ≤ breadth * price breadth depth :=
    Nat.mul_le_mul_right _ hle
  rw [price]
  omega

/-- What is set aside for a name is left over when it has been visited. -/
theorem costOf_visit {rest : List Text} (hrest : f.pending = name :: rest) :
    costOf h ({ f with pending := rest } :: outer) +
        price h.files.nodes.length (h.files.directoryCount - (outer.length + 1)) =
      costOf h (f :: outer) := by
  rw [costOf, costOf, hrest, List.length_cons, Nat.succ_mul]
  show rest.length * _ + 1 + _ + _ = _
  omega

/-- Entering a directory costs less than what is set aside for its name. -/
theorem costOf_enter_lt (hg : g.pending.length ≤ h.files.nodes.length)
    (hdepth : outer.length + 1 ≤ h.files.directoryCount) : costOf h (g :: outer) <
      costOf h outer + price h.files.nodes.length (h.files.directoryCount - outer.length) := by
  obtain ⟨depth, hdepth⟩ := Nat.exists_eq_add_of_le' hdepth
  have hbelow : h.files.directoryCount - (outer.length + 1) = depth := by omega
  have habove : h.files.directoryCount - outer.length = depth + 1 := by omega
  rw [costOf, hbelow, habove]
  have hprice := length_mul_price_lt hg depth
  omega

/-- **Each turn leaves less to do.** -/
theorem cost_lt_of_turns (hfs : h.files.Proper) (hb : b.IsNormal) (hw : Standing h c b w)
    (ht : Turns h c b.dirText p w t) : cost h t.walk < cost h w := by
  have hstanding := hw.turn hfs hb ht
  cases ht with
  | begin hinto =>
    rcases turnInto_eq_ok hinto with rfl | ⟨g, p', -, rfl⟩
    · exact price_pos _ _
    · obtain ⟨ds, hn⟩ := hstanding.resolve_left (List.cons_ne_nil _ _)
      have hcost := costOf_enter_lt hn.placed.length_le (hn.length_le hb)
      rwa [costOf, Nat.zero_add, List.length_nil, Nat.sub_zero] at hcost
  | @leave f outer hrest =>
    show costOf h outer < costOf h (f :: outer)
    rw [costOf]
    omega
  | @visit f outer name rest found hrest =>
    show costOf h ({ f with pending := rest } :: outer) < costOf h (f :: outer)
    rw [← costOf_visit hrest]
    exact Nat.lt_add_of_pos_right (price_pos _ _)
  | @enter f g outer name rest p' hrest hv hopen =>
    obtain ⟨ds, hn⟩ := hstanding.resolve_left (List.cons_ne_nil _ _)
    show costOf h (g :: { f with pending := rest } :: outer) < costOf h (f :: outer)
    rw [← costOf_visit hrest]
    exact costOf_enter_lt hn.placed.length_le (hn.length_le hb)

/-! ## Courses -/

namespace Course
variable {n : Nat} {found : List Text}

/-- **Whatever is loaded, an iteration is inside of nested directories at each moment**, and the
turns that it has taken and those that it can still take are no more than the limit. -/
theorem standing (hfs : h.files.Proper) (hb : b.IsNormal) (hc : Course h c b.dirText n w found) :
    Standing h c b w ∧ n + cost h w ≤ turnLimit h := by
  induction hc with
  | start => exact ⟨trivial, Nat.le_of_eq (Nat.zero_add _)⟩
  | turn _ hturn ih =>
    have ht := turns_of_turn hturn
    have hcost := cost_lt_of_turns hfs hb ih.1 ht
    exact ⟨ih.1.turn hfs hb ht, by omega⟩

/-- A turn finds one file at most. -/
theorem length_found_le (hc : Course h c root n w found) : found.length ≤ n := by
  induction hc with
  | start => exact Nat.le_refl 0
  | @turn _ _ _ _ t _ _ ih =>
    rw [List.length_append]
    exact Nat.add_le_add ih t.found.length_toList_le

/-- **No iteration takes more turns than the limit**, whatever is loaded at each of them. -/
theorem le_turnLimit (hfs : h.files.Proper) (hb : b.IsNormal)
    (hc : Course h c b.dirText n w found) : n ≤ turnLimit h :=
  (Nat.le_add_right _ _).trans (hc.standing hfs hb).2

end Course
end Walk
end PathFilter
