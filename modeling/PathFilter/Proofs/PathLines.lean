import PathFilter.Proofs.LiteralPatterns
import PathFilter.Proofs.Pruning

/-! # Lines that are paths

A line of a list of paths is looked up from the root of the list (`Rule.target`).  What it names is
the root, lies below the root, or lies outside; the texts of the two tell which, but for one case:
the text of the root `/` also begins the texts of what lies below `//` (`Pathname.MistakenTop`).

* The pattern of a line follows from where its target lies (`patternOfPath_of_eq`,
  `patternOfPath_of_below`, `patternOfPath_of_outside`).
* **The rule of a line matches what the line names and what lies below that, and nothing else**
  (`ofPathLine?_selects`).  It may match within the directories that are met on the way to it, and
  within those that have no name, of which there are two.
* A path that begins with two slashes and is looked up from `/` is the mistaken case: it lies
  outside, and its rule matches what bears the same names below `/`
  (`outside_of_two_slashes_matches`).
-/

namespace PathFilter
open Text

/-! ## Directories and what their texts begin -/

namespace Pathname
variable {b c q : Pathname} {cs : List Text}

/-- The text of a directory begins the text of something that does not lie in it: the directory is
`/` and the other begins with two slashes. -/
def MistakenTop (b q : Pathname) : Prop := b = ⟨.slash, []⟩ ∧ q.anchor = .doubleSlash

instance (b q : Pathname) : Decidable (MistakenTop b q) := inferInstanceAs (Decidable (_ ∧ _))

@[simp] theorem into_nil (p : Pathname) : p.into [] = p := by
  rw [into, List.append_nil]

theorem eq_into_iff : q = b.into cs ↔ q.anchor = b.anchor ∧ q.components = b.components ++ cs := by
  obtain ⟨a, components⟩ := q
  exact iff_of_eq (Pathname.mk.injEq ..)

theorem IsNormal.eq_of_toText_eq (hb : b.IsNormal) (hq : q.IsNormal) (h : b.toText = q.toText) :
    b = q := by
  rw [← hb.ofText_toText, h, hq.ofText_toText]

theorem IsNormal.eq_of_dirText_eq (hb : b.IsNormal) (hq : q.IsNormal)
    (h : b.dirText = q.dirText) : b = q := by
  rw [← hb.ofText_dirText, h, hq.ofText_dirText]

/-- Of two directories under the same anchor, the text of one begins that of the other if that lies
in it. -/
theorem dirText_prefix_iff_of_anchor (a : Anchor) {as bs : List Text} (has : ∀ c ∈ as, c.IsName)
    (hbs : ∀ c ∈ bs, c.IsName) :
    (⟨a, as⟩ : Pathname).dirText <+: (⟨a, bs⟩ : Pathname).dirText ↔
      ∃ cs, (⟨a, bs⟩ : Pathname) = (⟨a, as⟩ : Pathname).into cs := by
  rw [dirText, dirText, List.prefix_append_right_inj, Path.dir_prefix_iff has hbs]
  constructor
  · rintro ⟨cs, rfl⟩
    exact ⟨cs, rfl⟩
  · rintro ⟨cs, heq⟩
    exact ⟨cs, (congrArg components heq).symm⟩

/-- **The text of a directory begins the texts of what lies in it**, and of the mistaken case. -/
theorem IsNormal.dirText_prefix_iff (hb : b.IsNormal) (hq : q.IsNormal) :
    b.dirText <+: q.dirText ↔ (∃ cs, q = b.into cs) ∨ MistakenTop b q := by
  obtain ⟨a, as⟩ := b
  obtain ⟨a', bs⟩ := q
  cases a with
  | relative => exact absurd rfl hb.anchored
  | slash =>
    cases a' with
    | relative => exact absurd rfl hq.anchored
    | slash =>
      rw [dirText_prefix_iff_of_anchor _ hb.isName hq.isName, or_iff_left]
      rintro ⟨-, h⟩
      cases h
    | doubleSlash =>
      constructor
      · rintro ⟨t, ht⟩
        refine .inr ⟨?_, rfl⟩
        cases as with
        | nil => rfl
        | cons c as =>
          -- the second slash would begin the first name
          obtain ⟨d, c, rfl⟩ := List.exists_cons_of_ne_nil (hb.isName c List.mem_cons_self).1
          have hd : d = '/' := (List.cons.inj (List.cons.inj ht).2).1
          exact absurd (congrArg some hd) (Path.head?_dir_ne hb.isName)
      · rintro (⟨cs, h⟩ | ⟨h, -⟩)
        · cases h
        · cases h
          exact ⟨'/' :: Path.dir bs, rfl⟩
  | doubleSlash =>
    cases a' with
    | relative => exact absurd rfl hq.anchored
    | slash =>
      refine iff_of_false ?_ ?_
      · rintro ⟨t, ht⟩
        refine Path.head?_dir_ne hq.isName ?_
        exact (congrArg List.head? (List.cons.inj ht).2).symm
      · rintro (⟨cs, h⟩ | ⟨h, -⟩)
        · cases h
        · cases h
    | doubleSlash =>
      rw [dirText_prefix_iff_of_anchor _ hb.isName hq.isName, or_iff_left]
      rintro ⟨h, -⟩
      cases h

theorem IsNormal.toText_prefix_dirText (hq : q.IsNormal) : q.toText <+: q.dirText := by
  by_cases hnil : q.components = []
  · exact hq.dirText_eq_toText hnil ▸ List.prefix_rfl
  · rw [hq.dirText_eq_toText_append hnil]
    exact List.prefix_append _ _

end Pathname

namespace Rule
open Pattern Pathname
variable {homes : Homes} {b c q : Pathname} {p : Text} {cs : List Text} {allow isDir : Bool}
  {firstLine : Option Text}

/-! ## What a line names -/

/-- What a path names that is looked up from a directory. -/
def target (homes : Homes) (b : Pathname) (p : Text) : Pathname :=
  (ofText (Path.join b.dirText (homes.expand p))).normalize

theorem isNormal_target (hb : b.IsNormal) (homes : Homes) (p : Text) :
    (target homes b p).IsNormal :=
  isNormal_normalize (Anchor.ofText_ne_relative (Path.head?_join hb.head?_dirText _))
    fun _ hc => isName_of_mem_componentsOf hc

theorem patternOfPath_eq (hb : b.IsNormal) (hp : p.head? ≠ some '*') :
    patternOfPath homes b.dirText p =
      if target homes b p = b then some ['*', '*']
      else (b.dirText.isPrefixOf? (target homes b p).toText).map fun rest =>
        '/' :: rest ++ if p.endsIn '/' then ['/'] else [] := by
  have hq := isNormal_target hb homes p
  have htext : Path.normalize (Path.join b.dirText (homes.expand p)) = (target homes b p).toText :=
    rfl
  have hiff : (target homes b p).dirText = b.dirText ↔ target homes b p = b :=
    ⟨hq.eq_of_dirText_eq hb, congrArg dirText⟩
  rw [patternOfPath, if_neg hp, htext]
  simp only [hq.slashed_toText, hiff]

/-- The root itself is asked for by `**`. -/
theorem patternOfPath_of_eq (hb : b.IsNormal) (hp : p.head? ≠ some '*')
    (h : target homes b p = b) : patternOfPath homes b.dirText p = some ['*', '*'] := by
  rw [patternOfPath_eq hb hp, if_pos h]

/-- What lies below the root is asked for by its names. -/
theorem patternOfPath_of_below (hb : b.IsNormal) (hp : p.head? ≠ some '*') (hcs : cs ≠ [])
    (h : target homes b p = b.into cs) : patternOfPath homes b.dirText p =
      some ('/' :: joinWith '/' cs ++ if p.endsIn '/' then ['/'] else []) := by
  have hne : b.into cs ≠ b := by
    exact fun heq => hcs (List.append_right_eq_self.mp (congrArg components heq))
  rw [patternOfPath_eq hb hp, h, if_neg hne, toText_into hb.anchored hcs,
    List.isPrefixOf?_eq_some_iff_append_eq.mpr rfl]
  rfl

/-- What lies outside has no pattern. -/
theorem patternOfPath_of_outside (hb : b.IsNormal) (hp : p.head? ≠ some '*')
    (h : ¬ ∃ cs, target homes b p = b.into cs) (hmistaken : ¬ MistakenTop b (target homes b p)) :
    patternOfPath homes b.dirText p = none := by
  have hq := isNormal_target hb homes p
  have hne : target homes b p ≠ b := fun heq => h ⟨[], by rw [heq, into_nil]⟩
  have hprefix : ¬ b.dirText <+: (target homes b p).toText := fun hpre =>
    ((hb.dirText_prefix_iff hq).mp (hpre.trans hq.toText_prefix_dirText)).elim h hmistaken
  rw [patternOfPath_eq hb hp, if_neg hne, Option.map_eq_none_iff]
  by_contra hsome
  obtain ⟨rest, hrest⟩ := Option.ne_none_iff_exists'.mp hsome
  exact hprefix ⟨rest, List.isPrefixOf?_eq_some_iff_append_eq.mp hrest⟩

/-! ## The rule of a line -/

/-- The path on a line, which may stand behind a `!` that negates the rule. -/
def pathOn (line : Text) : Text := if line.head? = some '!' then line.tail else line

/-- What stands before the path on a line. -/
def markOn (line : Text) : Text := if line.head? = some '!' then ['!'] else []

theorem markOn_append_pathOn (line : Text) : markOn line ++ pathOn line = line := by
  rw [markOn, pathOn]
  split
  · rename_i h
    obtain ⟨rest, rfl⟩ := List.head?_eq_some_iff.mp h
    rfl
  · rfl

theorem strip_ne_nil {line : Text} (h : ∃ c ∈ line, isBlank c = false) :
    ¬ (strip line).isEmpty = true := by
  rintro hempty
  obtain ⟨c, hc, hblank⟩ := h
  rw [strip_eq_nil_iff.mp (List.isEmpty_iff.mp hempty) c hc] at hblank
  cases hblank

/-- A path that has no pattern has a rule that matches nothing. -/
theorem ofPathLine?_of_none {root line : Text} (hline : ∃ c ∈ line, isBlank c = false)
    (h : patternOfPath homes (Path.slashed root) (pathOn line) = none) :
    ofPathLine? homes root allow line = some (.unmatchable line (line.head? = some '!')) := by
  rw [pathOn] at h
  rw [ofPathLine?, if_neg (strip_ne_nil hline)]
  by_cases hmark : line.head? = some '!'
  · simp only [hmark, decide_true, if_pos] at h ⊢
    simp [h]
  · simp only [hmark, decide_false, if_false] at h ⊢
    simp [h]

/-- Any other has the rule on the line of its pattern. -/
theorem ofPathLine?_of_some {root line pattern : Text} (hline : ∃ c ∈ line, isBlank c = false)
    (h : patternOfPath homes (Path.slashed root) (pathOn line) = some pattern) :
    ofPathLine? homes root allow line = ofLine? root allow (markOn line ++ pattern) := by
  rw [pathOn] at h
  rw [ofPathLine?, if_neg (strip_ne_nil hline), markOn]
  by_cases hmark : line.head? = some '!'
  · simp only [hmark, decide_true, if_pos] at h ⊢
    simp [h]
  · simp only [hmark, decide_false, if_false] at h ⊢
    simp [h]

/-! ## What the rule matches -/

theorem stepsMatch_anyRun_iff {t : Text} : StepsMatch [.component [.anyRun]] t ↔ '/' ∉ t := by
  rw [stepsMatch_singleton_iff]
  constructor
  · rintro (_ | _ | _ | @⟨u, _, _, hu, ⟨⟩⟩ | _)
    rwa [List.append_nil]
  · intro ht
    have h : PiecesMatch [.anyRun] (t ++ []) := .anyRun ht .nil
    rwa [List.append_nil] at h

theorem stepsMatch_anyDepth_anyRun (t : Text) :
    StepsMatch [.anyDepth, .component [.anyRun]] t := by
  induction t with
  | nil => exact .none (stepsMatch_anyRun_iff.mpr List.not_mem_nil)
  | cons c t ih =>
    cases ih with
    | @some _ _ v _ h => exact .some (v := c :: v) h
    | none h =>
      by_cases hc : c = '/'
      · subst hc
        exact .some (v := []) h
      · have ht := stepsMatch_anyRun_iff.mp h
        exact .none (stepsMatch_anyRun_iff.mpr (by simp [Ne.symm hc, ht]))

/-- The rule on the line `**` matches everything below its root. -/
theorem ofLine?_globstar (root : Text) :
    ∃ r, ofLine? root true ['*', '*'] = some r ∧
      ∀ c rel, rel ≠ [] → c.path = Path.slashed root ++ rel → r.appliesTo c = true := by
  refine ⟨.path ⟨_, _, _, _, _⟩, rfl, fun c rel hrel hc => ?_⟩
  rw [appliesTo_path_iff hrel hc, PathPattern.accepts_true_iff]
  exact .inl ⟨stepsMatch_anyDepth_anyRun rel, nofun⟩

/-- A rule for the names below a directory matches what they lead to, and what lies below that. -/
theorem appliesTo_literal_iff (hb : b.IsNormal) (hcs : cs ≠ []) (hq : (b.into cs).IsNormal)
    (hc : c.IsNormal) {line : Text} {directoryOnly : Bool} :
    (Rule.path { line, root := b.dirText, negated := false, allow := true
                 pattern := ⟨literalSteps cs, true, directoryOnly⟩ }).appliesTo
        ⟨c.toText, isDir, firstLine⟩ = true ↔
      (c = b.into cs ∧ (directoryOnly = true → isDir = true)) ∨
        ∃ ds, ds ≠ [] ∧ c = (b.into cs).into ds := by
  have hcomponents : (b.into cs).components ≠ [] := fun h => hcs (List.append_eq_nil_iff.mp h).2
  have htext : (b.into cs).toText = b.dirText ++ joinWith '/' cs := toText_into hb.anchored hcs
  have hdir : (b.into cs).dirText = b.dirText ++ joinWith '/' cs ++ ['/'] := by
    rw [hq.dirText_eq_toText_append hcomponents, htext]
  have hjoin : joinWith '/' cs ≠ [] := joinWith_ne_nil hcs fun d hd =>
    (hq.isName d (List.mem_append_right _ hd)).1
  rw [appliesTo, Option.any_eq_true]
  simp only [Candidate.below?, Path.below?_eq_some_iff, PathPattern.accepts_literalSteps_iff hcs]
  constructor
  · rintro ⟨rel, ⟨-, hpath⟩, ⟨rfl, hkind⟩ | ⟨below, rfl⟩⟩
    · exact .inl ⟨hc.eq_of_toText_eq hq (hpath.trans htext.symm), hkind⟩
    · -- what begins with the text of a directory lies in it
      have hpath' : c.toText = (b.into cs).dirText ++ below := by
        rw [hpath, hdir]
        simp
      have hprefix : (b.into cs).dirText <+: c.dirText :=
        (show (b.into cs).dirText <+: c.toText from ⟨below, hpath'.symm⟩).trans
          hc.toText_prefix_dirText
      obtain ⟨ds, rfl⟩ | ⟨htop, -⟩ := (hq.dirText_prefix_iff hc).mp hprefix
      · refine .inr ⟨ds, ?_, rfl⟩
        rintro rfl
        rw [into_nil] at hpath'
        have hlength := congrArg List.length (htext.symm.trans (hpath'.trans (by rw [hdir])))
        simp at hlength
      · exact absurd (congrArg components htop) hcomponents
  · rintro (⟨rfl, hkind⟩ | ⟨ds, hds, rfl⟩)
    · exact ⟨_, ⟨hjoin, htext⟩, .inl ⟨rfl, hkind⟩⟩
    · refine ⟨joinWith '/' cs ++ '/' :: joinWith '/' ds, ⟨by simp [hjoin], ?_⟩, .inr ⟨_, rfl⟩⟩
      rw [toText_into hq.anchored hds, hdir]
      simp

/-- It may match within the directories on the way there, and within those without a name. -/
theorem mayMatchWithin_literal_iff (hb : b.IsNormal) (hcs : cs ≠ []) (hq : (b.into cs).IsNormal)
    (hc : c.IsNormal) {line : Text} {directoryOnly : Bool} :
    (Rule.path { line, root := b.dirText, negated := false, allow := true
                 pattern := ⟨literalSteps cs, true, directoryOnly⟩ }).mayMatchWithin
        ⟨c.toText, isDir, firstLine⟩ = true ↔
      isDir = true ∧ ((∃ ds, ds ≠ [] ∧ b.into cs = c.into ds) ∨ c.components = []) := by
  cases isDir with
  | false => exact iff_of_false (by simp [mayMatchWithin]) (by simp)
  | true =>
    refine (mayMatchWithin_iff rfl).trans (and_congr_right fun _ => (and_iff_right rfl).trans ?_)
    have hencloses : Candidate.encloses ⟨c.toText, true, firstLine⟩ b.dirText = true ↔
        (∃ ds, b = c.into ds) ∨ c.components = [] := by
      by_cases hnil : c.components = []
      · exact iff_of_true (Candidate.encloses_of_components_eq_nil hc hnil hb.head?_dirText)
          (.inr hnil)
      · rw [Candidate.encloses_iff hc hnil, hc.dirText_prefix_iff hb]
        refine or_congr Iff.rfl (iff_of_false ?_ hnil)
        rintro ⟨htop, -⟩
        exact hnil (congrArg components htop)
    simp only [hencloses, mayMatchBelow, PathPattern.mayMatchBelow_literalSteps_iff,
      Candidate.below?, Path.below?_eq_some_iff]
    constructor
    · rintro ((⟨ds, rfl⟩ | hnil) | ⟨_, ⟨-, hpath⟩, as, bs, has, hbs, rfl, rfl⟩)
      · exact .inl ⟨ds ++ cs, by simp [hcs], (into_append c ds cs).symm⟩
      · exact .inr hnil
      · have hway : (b.into as).IsNormal :=
          hb.into fun d hd => hq.proper d (by simp [Pathname.into, hd])
        obtain rfl := hc.eq_of_toText_eq hway (hpath.trans (toText_into hb.anchored has).symm)
        exact .inl ⟨bs, hbs, into_append b as bs⟩
    · rintro (⟨ds, hds, heq⟩ | hnil)
      · obtain ⟨hanchor, hcomponents⟩ := eq_into_iff.mp heq
        -- the candidate lies above the root, or on the way from the root
        rcases List.append_eq_append_iff.mp hcomponents with ⟨x, hx, rfl⟩ | ⟨x, hx, rfl⟩
        · have hcx : c = b.into x := eq_into_iff.mpr ⟨hanchor.symm, hx⟩
          by_cases hxnil : x = []
          · exact .inl (.inl ⟨[], by rw [hcx, hxnil, into_nil, into_nil]⟩)
          · refine .inr ⟨joinWith '/' x, ⟨?_, ?_⟩, x, ds, hxnil, hds, rfl, rfl⟩
            · exact joinWith_ne_nil hxnil fun d hd => (hq.isName d (by simp [Pathname.into, hd])).1
            · rw [hcx, toText_into hb.anchored hxnil]
        · exact .inl (.inl ⟨x, eq_into_iff.mpr ⟨hanchor, hx⟩⟩)
      · exact .inl (.inr hnil)

/-- **A line that is a path selects what it names and what lies below that.**  What lies outside
of the root has a rule that matches nothing, and the root itself one that matches everything below
it.  A path below the root, all of whose characters stand for themselves, has a rule that matches
what the path names, if it is a directory where the line ends in a slash, and what lies below
that; and that may match within the directories on the way to it.  Two cases are apart: a path
that begins with two slashes and is looked up from `/`, and the directories without a name, in
which every rule may match. -/
theorem ofPathLine?_selects (homes : Homes) (hb : b.IsNormal)
    (hblank : ∃ c ∈ p, Text.isBlank c = false) (hnegated : p.head? ≠ some '!')
    (hglob : p.head? ≠ some '*') (hmistaken : ¬ MistakenTop b (target homes b p)) :
    ((¬ ∃ cs, target homes b p = b.into cs) →
      ofPathLine? homes b.dirText true p = some (.unmatchable p false)) ∧
    (target homes b p = b →
      ∃ r, ofPathLine? homes b.dirText true p = some r ∧
        ∀ c, (c.below? b.dirText).isSome = true → r.appliesTo c = true) ∧
    ∀ cs, cs ≠ [] → target homes b p = b.into cs → IsPlain (target homes b p).toText →
      ∃ r, ofPathLine? homes b.dirText true p = some r ∧
        ∀ (c : Pathname) (isDir : Bool) (firstLine : Option Text), c.IsNormal →
          (r.appliesTo ⟨c.toText, isDir, firstLine⟩ = true ↔
            (c = target homes b p ∧ (p.endsIn '/' = true → isDir = true)) ∨
              ∃ ds, ds ≠ [] ∧ c = (target homes b p).into ds) ∧
          (r.mayMatchWithin ⟨c.toText, isDir, firstLine⟩ = true ↔
            isDir = true ∧
              ((∃ ds, ds ≠ [] ∧ target homes b p = c.into ds) ∨ c.components = [])) := by
  have hpath : pathOn p = p := if_neg hnegated
  have hmark : markOn p = [] := if_neg hnegated
  have hroot : Path.slashed b.dirText = b.dirText := Path.slashed_of_endsIn hb.endsIn_dirText
  refine ⟨fun houtside => ?_, fun heq => ?_, fun cs hcs heq hplain => ?_⟩
  · rw [ofPathLine?_of_none hblank]
    · rw [decide_eq_false hnegated]
    · rw [hroot, hpath, patternOfPath_of_outside hb hglob houtside hmistaken]
  · obtain ⟨r, hr, happlies⟩ := ofLine?_globstar b.dirText
    have hpattern : patternOfPath homes (Path.slashed b.dirText) (pathOn p) = some ['*', '*'] := by
      rw [hroot, hpath, patternOfPath_of_eq hb hglob heq]
    refine ⟨r, by rw [ofPathLine?_of_some hblank hpattern, hmark, ← hr]; rfl, fun c hbelow => ?_⟩
    obtain ⟨rel, hrel⟩ := Option.isSome_iff_exists.mp hbelow
    obtain ⟨hne, hpath⟩ := Path.below?_eq_some_iff.mp hrel
    exact happlies c rel hne (hroot.symm ▸ hpath)
  · have hq : (b.into cs).IsNormal := heq ▸ isNormal_target hb homes p
    have hnames : ∀ d ∈ cs, d.IsName := fun d hd => hq.isName d (List.mem_append_right _ hd)
    have hjoin : joinWith '/' cs ≠ [] := joinWith_ne_nil hcs fun d hd => (hnames d hd).1
    rw [heq, toText_into hb.anchored hcs] at hplain
    have hplain' : IsPlain (joinWith '/' cs) :=
      ⟨fun d hd => hplain.chars d (List.mem_append_right _ hd),
        List.getLast?_append_of_ne_nil b.dirText hjoin ▸ hplain.last⟩
    obtain ⟨line, hline⟩ := ofLine?_literal b.dirText true hcs hnames hplain'
      (p.endsIn '/')
    have hpattern : patternOfPath homes (Path.slashed b.dirText) (pathOn p) =
        some ('/' :: joinWith '/' cs ++ if p.endsIn '/' then ['/'] else []) := by
      rw [hroot, hpath, patternOfPath_of_below hb hglob hcs heq]
    refine ⟨_, by rw [ofPathLine?_of_some hblank hpattern, hmark, ← hline]; rfl, ?_⟩
    intro c isDir firstLine hc
    rw [hroot, heq]
    exact ⟨appliesTo_literal_iff hb hcs hq hc, mayMatchWithin_literal_iff hb hcs hq hc⟩

/-- No home directory is known. -/
def noHomes : Homes := ⟨none, []⟩

/-- The line `x/../a/b/`, looked up from `/r`, selects the directory `/r/a/b` and what lies below
it. -/
theorem ofPathLine?_of_detour :
    target noHomes ⟨.slash, ["r".toList]⟩ "x/../a/b/".toList =
        ⟨.slash, ["r".toList, "a".toList, "b".toList]⟩ ∧
      ∃ r, ofPathLine? noHomes "/r/".toList true "x/../a/b/".toList = some r ∧
        ∀ (c : Pathname) (isDir : Bool) (firstLine : Option Text), c.IsNormal →
          (r.appliesTo ⟨c.toText, isDir, firstLine⟩ = true ↔
            (c = ⟨.slash, ["r".toList, "a".toList, "b".toList]⟩ ∧ (true = true → isDir = true)) ∨
              ∃ ds, ds ≠ [] ∧ c = into ⟨.slash, ["r".toList, "a".toList, "b".toList]⟩ ds) ∧
          (r.mayMatchWithin ⟨c.toText, isDir, firstLine⟩ = true ↔
            isDir = true ∧
              ((∃ ds, ds ≠ [] ∧
                  ⟨.slash, ["r".toList, "a".toList, "b".toList]⟩ = c.into ds) ∨
                c.components = [])) := by
  have htarget : target noHomes ⟨.slash, ["r".toList]⟩ "x/../a/b/".toList =
      ⟨.slash, ["r".toList, "a".toList, "b".toList]⟩ := by decide +kernel
  have hb : (⟨.slash, ["r".toList]⟩ : Pathname).IsNormal := ⟨by decide, by decide⟩
  have hplain : IsPlain (target noHomes ⟨.slash, ["r".toList]⟩ "x/../a/b/".toList).toText := by
    rw [htarget]
    show IsPlain "/r/a/b".toList
    exact ⟨by simp [IsPlainChar], by simp [IsLineBlank]⟩
  have h := (ofPathLine?_selects noHomes hb (p := "x/../a/b/".toList)
    ⟨'x', by decide, by decide⟩ (by decide) (by decide) (by decide +kernel)).2.2
      ["a".toList, "b".toList] (by decide) htarget hplain
  rw [htarget] at h
  exact ⟨htarget, h⟩

/-- **The path `//a`, looked up from `/`, lies outside, and yet its rule matches `/a`.**  Nor are
the directories that a rule may match within all on the way to what it selects: a rule for `/r/a`
may match within `//`. -/
theorem outside_of_two_slashes_matches :
    (¬ ∃ cs, target noHomes ⟨.slash, []⟩ "//a".toList = into ⟨.slash, []⟩ cs) ∧
    (ofPathLine? noHomes "/".toList true "//a".toList).any
        (·.appliesTo ⟨"/a".toList, false, none⟩) = true ∧
    (¬ ∃ ds, target noHomes ⟨.slash, ["r".toList]⟩ "a".toList = into ⟨.doubleSlash, []⟩ ds) ∧
    (ofPathLine? noHomes "/r/".toList true "a".toList).any
        (·.mayMatchWithin ⟨"//".toList, true, none⟩) = true := by
  refine ⟨?_, by decide +kernel, ?_, by decide +kernel⟩
  · rintro ⟨cs, h⟩
    have hanchor : (target noHomes ⟨.slash, []⟩ "//a".toList).anchor = .slash := congrArg anchor h
    exact absurd hanchor (by decide +kernel)
  · rintro ⟨ds, h⟩
    have hanchor : (target noHomes ⟨.slash, ["r".toList]⟩ "a".toList).anchor = .doubleSlash :=
      congrArg anchor h
    exact absurd hanchor (by decide +kernel)

end Rule
end PathFilter
