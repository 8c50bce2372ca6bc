import PathFilter.Proofs.Listing

/-! # What an iteration finds and has still to find

An iteration that has stopped keeps frames of the directories that it is inside of; what it will
find for them is known from the frames alone (`Walk.Remaining`), whatever is loaded before it goes
on.  **Each stretch of an iteration moves files from what remains to what is found, and loses none
of them** (`Walk.Accounts`): the files found in it, followed by those that remain, are the files
that remained before.

* The law holds of a directory that is scanned (`scan_accounts`) and of one that is entered
  (`enter_accounts`), and so of an iteration that goes on (`resume_accounts`) and of any that is
  advanced (`advance_accounts`).
* An iteration that all files are asked of finds all that remain.
-/

namespace PathFilter.Walk
open PathFilter.Path

section
variable (h : Host) (c : Config) (b : Pathname) (p₀ : Policy)

/-- The files that frames have still to find, the innermost first. -/
inductive Remaining (p : Policy) : List Frame → List Text → Prop where
  | nil : Remaining p [] []
  | cons {f : Frame} {ds : List Text} {outer : List Frame} {rest : List Text} :
      FrameFor h b p₀ p f ds → Opened h c b ds f.inodes → (∀ n ∈ f.pending, IsProper n) →
        Remaining p outer rest →
        Remaining p (f :: outer) (filesAmong h c b p₀ ds f.inodes f.pending ++ rest)

/-- How an iteration has stopped that had the given files to find. -/
def Settles (wanted : Option Nat) (list : List Text) (p : Progress) : Prop :=
  match p.halt with
  | .finished => p.found = list
  | .failed _ => False
  | .paused frames => wanted ≠ none ∧ ∃ rest, Remaining h c b p₀ p.policy frames rest ∧
      p.found ++ rest = list

/-- **The law of an iteration** that had the given files to find, from a policy on: it has loaded
more of the ignore files, and it has found these files but for those that remain. -/
structure Accounts (p : Policy) (wanted : Option Nat) (list : List Text) (q : Progress) :
    Prop where
  coherent : p₀.Coherent h q.policy
  grown : p.Extends q.policy
  unbounded : wanted = none → q.wanted = none
  settles : Settles h c b p₀ wanted list q

end

variable {h : Host} {c : Config} {b : Pathname} {p p' p₀ : Policy} {ds : List Text}
  {above : List Nat} {seen : List (Location × Node)} {f : Frame} {frames outer : List Frame}
  {wanted : Option Nat} {list list₁ list₂ rest : List Text} {q : Progress}

theorem FrameFor.mono (hf : FrameFor h b p₀ p f ds) (hle : p.Extends p') :
    FrameFor h b p₀ p' f ds :=
  { hf with knows := hle ds hf.knows }

theorem Remaining.mono (hr : Remaining h c b p₀ p frames rest) (hle : p.Extends p') :
    Remaining h c b p₀ p' frames rest := by
  induction hr with
  | nil => exact .nil
  | cons hf ho hpending _ ih => exact .cons (hf.mono hle) ho hpending ih

theorem Remaining.append {rest' : List Text} (hr : Remaining h c b p₀ p frames rest)
    (hr' : Remaining h c b p₀ p outer rest') :
    Remaining h c b p₀ p (frames ++ outer) (rest ++ rest') := by
  induction hr with
  | nil => exact hr'
  | cons hf ho hpending _ ih =>
    rw [List.append_assoc]
    exact .cons hf ho hpending ih

/-! ## Stretches in a row -/

/-- An iteration with nothing to find has finished. -/
theorem accounts_finished (hp : p₀.Coherent h p) :
    Accounts h c b p₀ p wanted [] ⟨[], p, wanted, .finished⟩ :=
  ⟨hp, .refl p, id, rfl⟩

/-- **Stretches in a row find what each of them finds.** -/
theorem Accounts.andThen {next : Policy → Option Nat → Progress}
    (hq : Accounts h c b p₀ p wanted list₁ q)
    (hnext : ∀ p' w, p₀.Coherent h p' → p.Extends p' → Accounts h c b p₀ p' w list₂ (next p' w))
    (houter : ∀ frames, q.halt = .paused frames → Remaining h c b p₀ q.policy outer list₂) :
    Accounts h c b p₀ p wanted (list₁ ++ list₂) (Walk.andThen q outer next) := by
  have hsettles := hq.settles
  rw [Settles] at hsettles
  rw [Walk.andThen]
  cases hhalt : q.halt with
  | failed e =>
    rw [hhalt] at hsettles
    exact hsettles.elim
  | paused frames =>
    rw [hhalt] at hsettles
    obtain ⟨hwanted, rest, hr, hfound⟩ := hsettles
    refine ⟨hq.coherent, hq.grown, hq.unbounded, hwanted, rest ++ list₂, ?_, ?_⟩
    · exact hr.append (houter frames hhalt)
    · rw [← List.append_assoc, hfound]
  | finished =>
    rw [hhalt] at hsettles
    have hn := hnext q.policy q.wanted hq.coherent hq.grown
    have hnsettles := hn.settles
    rw [Settles] at hnsettles
    refine ⟨hn.coherent, hq.grown.trans hn.grown, fun hw => hn.unbounded (hq.unbounded hw), ?_⟩
    rw [Settles]
    simp only
    cases hhalt' : (next q.policy q.wanted).halt with
    | failed e =>
      rw [hhalt'] at hnsettles
      exact hnsettles.elim
    | finished =>
      rw [hhalt'] at hnsettles
      show q.found ++ _ = _
      rw [hsettles, hnsettles]
    | paused frames =>
      rw [hhalt'] at hnsettles
      obtain ⟨hwanted, rest, hr, hfound⟩ := hnsettles
      refine ⟨fun hw => hwanted (hq.unbounded hw), rest, hr, ?_⟩
      rw [List.append_assoc, hfound, hsettles]

/-! ## Directories -/

/-- **Scanning a directory finds the files among its names**, if entering one below does so. -/
theorem scan_accounts (hs : h.Sound) (hb : b.IsNormal) (hroot : p₀.RootedAt b)
    {enter : Text → Text → List Nat → Policy → Option Nat → Progress}
    (henter : ∀ name, IsProper name → visitAt h c b p₀ ds name = .ok .directory →
      ∀ p w, p₀.Coherent h p → p.Knows ds →
        Accounts h c b p₀ p w (files h c b p₀ (ds ++ [name]) f.inodes)
          (enter (f.directory ++ name ++ ['/']) (f.relative ++ name ++ ['/']) f.inodes p w))
    (hp : p₀.Coherent h p) (hf : FrameFor h b p₀ p f ds) (ho : Opened h c b ds f.inodes)
    {names : List Text} (hnames : ∀ n ∈ names, IsProper n) :
    Accounts h c b p₀ p wanted (filesAmong h c b p₀ ds f.inodes names)
      (scan h c enter f names p wanted) := by
  induction names generalizing p wanted with
  | nil => exact accounts_finished hp
  | cons name names ih =>
    have hname : IsProper name := hnames name List.mem_cons_self
    have htail : ∀ n ∈ names, IsProper n := fun n hn => hnames n (List.mem_cons_of_mem name hn)
    have hrest : ∀ p' w, p₀.Coherent h p' → p.Extends p' →
        Accounts h c b p₀ p' w (filesAmong h c b p₀ ds f.inodes names)
          (scan h c enter f names p' w) :=
      fun p' w hp' hle => ih hp' (hf.mono hle) htail
    rw [scan]
    split
    · -- what is pending is kept in a frame
      rename_i hzero
      have hpaused : Remaining h c b p₀ p [{ f with pending := name :: names }]
          (filesAmong h c b p₀ ds f.inodes (name :: names) ++ []) :=
        .cons { hf with } ho hnames .nil
      rw [List.append_nil] at hpaused
      refine ⟨hp, .refl p, id, fun hw => ?_, _, hpaused, List.nil_append _⟩
      rw [hw] at hzero
      cases hzero
    · have hlist : filesAmong h c b p₀ ds f.inodes (name :: names) =
          filesOf (visitAt h c b p₀ ds name) (files h c b p₀ (ds ++ [name]) f.inodes) ++
            filesAmong h c b p₀ ds f.inodes names := by
        rw [filesAmong, List.flatMap_cons, filesAmong]
      obtain ⟨v, hv⟩ : ∃ v, visitAt h c b p₀ ds name = .ok v := exists_visitAt_eq hs ds name
      rw [visit_eq_visitAt hs hb hroot hp hf hname, hlist, hv]
      cases v with
      | pass => exact hrest p wanted hp (.refl p)
      | file path =>
        have hfound : Accounts h c b p₀ p wanted [path]
            ⟨[path], p, wanted.map (· - 1), .finished⟩ :=
          ⟨hp, .refl p, fun hw => by rw [hw]; rfl, rfl⟩
        exact hfound.andThen hrest (fun frames hpaused => by cases hpaused)
      | directory =>
        have hbelow := henter name hname hv p wanted hp hf.knows
        refine hbelow.andThen hrest (fun frames _ => ?_)
        rw [← List.append_nil (filesAmong h c b p₀ ds f.inodes names)]
        exact .cons { hf.mono hbelow.grown with } ho htail .nil

theorem Accounts.of_extends (hle : p.Extends p') (hq : Accounts h c b p₀ p' wanted list q) :
    Accounts h c b p₀ p wanted list q :=
  { hq with grown := hle.trans hq.grown }

/-- Opening a directory loads its ignore file and gives a frame for it. -/
theorem openDirectory_eq (hs : h.Sound) (hb : b.IsNormal) (hroot : p₀.RootedAt b)
    (ht : Trail h c b ds above seen) (hp : p₀.Coherent h p) (hk : p.Knows ds.dropLast)
    {inodes : List Nat} {names : List Text}
    (hcontents : contents h c (pathOf b ds) above = .ok (some (inodes, names))) :
    ∃ f p', openDirectory h c (pathOf b ds) (dir ds) above p = .ok (some (f, p')) ∧
      p₀.Coherent h p' ∧ p.Extends p' ∧ FrameFor h b p₀ p' f ds ∧ f.inodes = inodes ∧
      f.pending = names := by
  obtain ⟨-, hlist⟩ := contents_eq_ok_some_iff.mp hcontents
  have habsent : some (names.contains ignoreFileName) = some false →
      ∀ g, p₀.hierarchy = some g → g.nestedRules h (dir ds) = [] := by
    intro hnot g hg
    apply Hierarchy.nestedRules_of_not_mem hb (hroot.hierarchy g hg) ht.isProper hlist
    intro hmem
    rw [List.contains_iff_mem.mpr hmem] at hnot
    cases hnot
  obtain ⟨p', hload, hp', hk', hle⟩ := hp.load hs ht.isProper hk habsent
  refine ⟨⟨pathOf b ds, dir ds, names, inodes, p'.readsFirstLine⟩, p', ?_, hp', hle, ?_, rfl, rfl⟩
  · rw [openDirectory, hcontents]
    show (do let policy ← p.load h (dir ds) (some (names.contains ignoreFileName)); _) = _
    rw [hload]
    rfl
  · exact ⟨ht.isProper, rfl, rfl, hp'.readsFirstLine_of_along ht.isProper hk', hk'⟩

/-- A directory that is absent, or that its chain has been inside of, is passed over. -/
theorem openDirectory_eq_none (hs : h.Sound) {directory relative : Text}
    (hcontents : ∀ met, contents h c directory above ≠ .ok (some met)) :
    openDirectory h c directory relative above p = .ok none := by
  rw [openDirectory]
  cases hc : contents h c directory above with
  | error e =>
    rw [orAbsent, if_pos (meansAbsent_of_contents hs.mild hc)]
    rfl
  | ok met =>
    cases met with
    | none => rfl
    | some met => exact absurd hc (hcontents met)

/-- **Entering a directory finds the files below it.** -/
theorem enter_accounts (hs : h.Sound) (hb : b.IsNormal) (hroot : p₀.RootedAt b) {room : Nat}
    (ht : Trail h c b ds above seen) (hroom : h.files.directoryCount < ds.length + room)
    (hp : p₀.Coherent h p) (hk : p.Knows ds.dropLast) :
    Accounts h c b p₀ p wanted (files h c b p₀ ds above)
      (enter h c room (pathOf b ds) (dir ds) above p wanted) := by
  induction room generalizing ds above seen p wanted with
  | zero => exact absurd (ht.length_le hb) (Nat.not_le.mpr hroom)
  | succ room ih =>
    rw [enter]
    by_cases hmet : ∃ met, contents h c (pathOf b ds) above = .ok (some met)
    · obtain ⟨⟨inodes, names⟩, hcontents⟩ := hmet
      obtain ⟨f, p', hopen, hp', hle, hf, rfl, rfl⟩ :=
        openDirectory_eq hs hb hroot ht hp hk hcontents
      have ho := ht.opened hb hcontents
      rw [hopen, files_of_contents hs hb ht hcontents]
      refine (scan_accounts hs hb hroot ?_ hp' hf ho
        (fun n hn => isProper_of_mem_contents hs.regular.proper hcontents hn)).of_extends hle
      intro name hname hv p'' w hp'' hk''
      obtain ⟨seen', ht'⟩ := ho.entry hname ((visitAt_eq_directory_iff hs).mp hv).1
      rw [hf.directory, hf.relative, ← pathOf_concat, ← dir_concat]
      refine ih ht' ?_ hp'' (by rwa [List.dropLast_concat])
      rw [List.length_append, List.length_singleton]
      omega
    · have hnone : ∀ met, contents h c (pathOf b ds) above ≠ .ok (some met) :=
        fun met e => hmet ⟨met, e⟩
      rw [openDirectory_eq_none hs hnone, files_eq_nil hnone]
      exact accounts_finished hp

/-- Entering the directories in one that an iteration is inside of finds the files below them. -/
theorem enter_accounts_of_opened (hs : h.Sound) (hb : b.IsNormal) (hroot : p₀.RootedAt b)
    {room : Nat} (hroom : h.files.directoryCount ≤ ds.length + room)
    (hf : FrameFor h b p₀ p f ds) (ho : Opened h c b ds f.inodes) {name : Text}
    (hname : IsProper name) (hv : visitAt h c b p₀ ds name = .ok .directory)
    (hp' : p₀.Coherent h p') (hk : p'.Knows ds) :
    Accounts h c b p₀ p' wanted (files h c b p₀ (ds ++ [name]) f.inodes)
      (enter h c room (f.directory ++ name ++ ['/']) (f.relative ++ name ++ ['/']) f.inodes p'
        wanted) := by
  obtain ⟨seen, ht⟩ := ho.entry hname ((visitAt_eq_directory_iff hs).mp hv).1
  rw [hf.directory, hf.relative, ← pathOf_concat, ← dir_concat]
  refine enter_accounts hs hb hroot ht ?_ hp' (by rwa [List.dropLast_concat])
  rw [List.length_append, List.length_singleton]
  omega

/-! ## Iterations -/

/-- **An iteration that goes on finds what its frames have still to find.** -/
theorem resume_accounts (hs : h.Sound) (hb : b.IsNormal) (hroot : p₀.RootedAt b)
    (hp : p₀.Coherent h p) (hr : Remaining h c b p₀ p frames rest) :
    Accounts h c b p₀ p wanted rest (resume h c frames p wanted) := by
  induction frames generalizing p rest wanted with
  | nil =>
    cases hr
    exact accounts_finished hp
  | cons f outer ih =>
    cases hr with
    | @cons _ ds _ rest hf ho hpending hr =>
      rw [resume]
      have hroom : h.files.directoryCount ≤ ds.length + roomFor h := by
        rw [roomFor]
        omega
      have hscan : Accounts h c b p₀ p wanted (filesAmong h c b p₀ ds f.inodes f.pending)
          (scan h c (enter h c (roomFor h)) f f.pending p wanted) :=
        scan_accounts hs hb hroot (fun name hname hv p' w hp' hk' =>
          enter_accounts_of_opened hs hb hroot hroom hf ho hname hv hp' hk') hp hf ho hpending
      exact hscan.andThen (fun p' w hp' hle => ih hp' (hr.mono hle))
        (fun frames _ => hr.mono hscan.grown)

/-- What an iteration has still to find. -/
def Owes (h : Host) (c : Config) (b : Pathname) (p₀ p : Policy) (list : List Text) : Walk → Prop
  | .unstarted => list = files h c b p₀ [] []
  | .inside frames => Remaining h c b p₀ p frames list

theorem Owes.mono {w : Walk} (ho : Owes h c b p₀ p list w) (hle : p.Extends p') :
    Owes h c b p₀ p' list w := by
  cases w with
  | unstarted => exact ho
  | inside frames => exact Remaining.mono ho hle

/-- **An iteration that is advanced finds what it has still to find.** -/
theorem advance_accounts (hs : h.Sound) (hb : b.IsNormal) (hroot : p₀.RootedAt b)
    (hp : p₀.Coherent h p) {w : Walk} (ho : Owes h c b p₀ p list w) :
    Accounts h c b p₀ p wanted list (w.advance h c b.dirText p wanted) := by
  cases w with
  | inside frames => exact resume_accounts hs hb hroot hp ho
  | unstarted =>
    rw [show list = files h c b p₀ [] [] from ho, advance, ← pathOf_nil]
    refine enter_accounts hs hb hroot .root ?_ hp Policy.knows_nil
    rw [roomFor]
    omega

end PathFilter.Walk
