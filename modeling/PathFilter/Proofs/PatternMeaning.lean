import PathFilter.Proofs.Components
import PathFilter.Proofs.GlobMatching
import PathFilter.Proofs.Outcome

/-! # What patterns mean, component by component

A pattern is compiled into pieces and steps that run over the characters of a path.  What it is
meant to say speaks of components: a segment is matched against one name (`SegmentMatches`), `**`
against a run of names (`GlobMatches`).  This module shows that the two agree.

* The pieces of a segment match the names that the segment matches (`HasPieces.match_iff`).
* The steps of segments match the paths whose lists of names the segments match
  (`stepsMatch_iff`).  A slash that a backslash escapes stands within a segment and would let it
  reach over two names; it is left out here.
* **A pattern matches a path exactly if its segments match the names of the path**, all of them
  or, where the pattern is not tied to its root, those of some end of the path
  (`PathPattern.matches_joinWith_iff_globMatches`).
-/

namespace PathFilter.Pattern

/-- The names that a segment matches.  A star stands for any text, `?` for one character, a
bracket expression for one character that it admits, and any other glyph for its character. -/
inductive SegmentMatches : Segment → Text → Prop where
  | nil : SegmentMatches [] []
  | star {s : Segment} {u t : Text} :
      SegmentMatches s t → SegmentMatches (.bare '*' :: s) (u ++ t)
  | anyChar {s : Segment} {c : Char} {t : Text} :
      SegmentMatches s t → SegmentMatches (.bare '?' :: s) (c :: t)
  | oneOf {gs : List Glyph} {k : CharClass} {s : Segment} {c : Char} {t : Text} :
      CharClass.read gs = .ok (k, s) → k.admits c = true → SegmentMatches s t →
        SegmentMatches (.bare '[' :: gs) (c :: t)
  | literal {g : Glyph} {s : Segment} {t : Text} :
      g ≠ .bare '*' → g ≠ .bare '?' → g ≠ .bare '[' → SegmentMatches s t →
        SegmentMatches (g :: s) (g.char :: t)

/-- The lists of names that segments match.  A last `**` stands for one or more names, any other
`**` for any number of them, and every other segment for one name. -/
inductive GlobMatches : List Segment → List Text → Prop where
  | nil : GlobMatches [] []
  | rest {cs : List Text} : cs ≠ [] → GlobMatches [globstar] cs
  | globstar {ss : List Segment} {ds cs : List Text} :
      ss ≠ [] → GlobMatches ss cs → GlobMatches (globstar :: ss) (ds ++ cs)
  | component {s : Segment} {ss : List Segment} {c : Text} {cs : List Text} :
      s ≠ Pattern.globstar → SegmentMatches s c → GlobMatches ss cs →
        GlobMatches (s :: ss) (c :: cs)

/-- The segments as they are matched: a lone `**` is read as `*`. -/
def readLone (ss : List Segment) : List Segment := if ss = [globstar] then [star] else ss

/-! ## Segments -/

theorem piecesFrom_eq_drop (n : Nat) (s : Segment) : piecesFrom n s = pieces (s.drop n) := by
  induction n generalizing s with
  | zero => rfl
  | succ n ih =>
    cases s with
    | nil => rfl
    | cons g s => rw [piecesFrom, ih, List.drop_succ_cons]

/-- What is left behind the items of a class is the end of what was read. -/
theorem classItems_suffix {pos : ClassPosition} {gs rest : List Glyph} {items : List ClassItem}
    (h : classItems pos gs = .ok (items, rest)) : rest <:+ gs := by
  fun_induction classItems pos gs generalizing items rest with
  | case1 | case3 | case5 | case9 | case12 | case13 => cases h
  | case2 _ g =>
    cases h
    exact List.suffix_cons g []
  | case4 _ g k =>
    cases h
    exact List.suffix_cons g [k]
  | case7 _ g k i tail =>
    cases h
    exact List.suffix_cons g (k :: i :: tail)
  | case6 _ g k _ _ ih =>
    obtain ⟨⟨items', rest'⟩, hread, heq⟩ := map_eq_ok_iff.mp h
    cases heq
    exact (ih hread).trans (List.suffix_cons g [k])
  | case8 _ g k i tail _ _ ih => exact (ih h).trans ⟨[g, k], rfl⟩
  | case10 _ g k i tail _ _ _ _ ih =>
    obtain ⟨⟨items', rest'⟩, hread, heq⟩ := map_eq_ok_iff.mp h
    cases heq
    exact (ih hread).trans ⟨[g, k, i], rfl⟩
  | case11 _ g k i tail _ _ _ ih =>
    obtain ⟨⟨items', rest'⟩, hread, heq⟩ := map_eq_ok_iff.mp h
    cases heq
    exact (ih hread).trans (List.suffix_cons g (k :: i :: tail))
  | case14 read g k tail _ ih =>
    obtain ⟨name, -, h⟩ := bind_eq_ok_iff.mp h
    obtain ⟨⟨items', rest'⟩, hread, h⟩ := bind_eq_ok_iff.mp h
    cases h
    exact (ih hread).trans ⟨[g, k], rfl⟩
  | case15 read g k tail _ ih => exact (ih h).trans (List.suffix_cons g (k :: tail))

theorem CharClass.read_suffix {gs behind : List Glyph} {k : CharClass}
    (h : CharClass.read gs = .ok (k, behind)) : behind <:+ gs := by
  cases gs with
  | nil => cases h
  | cons g gs =>
    rw [CharClass.read] at h
    obtain ⟨⟨items, rest⟩, hread, heq⟩ := map_eq_ok_iff.mp h
    cases heq
    split at hread
    · exact (classItems_suffix hread).trans (List.suffix_cons g gs)
    · exact classItems_suffix hread

/-- How the pieces of a segment come about, glyph by glyph. -/
inductive HasPieces : Segment → List Piece → Prop where
  | nil : HasPieces [] []
  | stars {s : Segment} {ps : List Piece} :
      HasPieces (.bare '*' :: s) ps → HasPieces (.bare '*' :: .bare '*' :: s) ps
  | star {s : Segment} {ps : List Piece} :
      HasPieces s ps → HasPieces (.bare '*' :: s) (.anyRun :: ps)
  | anyChar {s : Segment} {ps : List Piece} :
      HasPieces s ps → HasPieces (.bare '?' :: s) (.anyChar :: ps)
  | oneOf {gs : List Glyph} {k : CharClass} {s : Segment} {ps : List Piece} :
      CharClass.read gs = .ok (k, s) → HasPieces s ps →
        HasPieces (.bare '[' :: gs) (.oneOf k :: ps)
  | literal {g : Glyph} {s : Segment} {ps : List Piece} :
      g ≠ .bare '*' → g ≠ .bare '?' → g ≠ .bare '[' → HasPieces s ps →
        HasPieces (g :: s) (.char g.char :: ps)

theorem hasPieces_of_pieces {s : Segment} {ps : List Piece} (h : pieces s = .ok ps) :
    HasPieces s ps := by
  -- a bracket expression takes several glyphs at once, so the induction is on their number
  induction hn : s.length using Nat.strongRecOn generalizing s ps with
  | ind n ih =>
    have hrec : ∀ {g : Glyph} {rest tail : Segment} {ps : List Piece}, s = g :: tail →
        rest <:+ tail → pieces rest = .ok ps → HasPieces rest ps := by
      intro g rest tail ps hs hrest hps
      refine ih rest.length ?_ hps rfl
      rw [← hn, hs, List.length_cons]
      exact Nat.lt_succ_of_le hrest.length_le
    cases s with
    | nil =>
      cases h
      exact .nil
    | cons g s =>
      rw [pieces, piecesFrom] at h
      split at h
      · rename_i hg
        subst hg
        split at h
        · rename_i hs
          cases s with
          | nil => cases hs
          | cons g' s =>
            obtain rfl : g' = .bare '*' := Option.some.inj hs
            exact .stars (hrec rfl List.suffix_rfl h)
        · obtain ⟨ps', hps, rfl⟩ := map_eq_ok_iff.mp h
          exact .star (hrec rfl List.suffix_rfl hps)
      · rename_i hstar
        split at h
        · rename_i hg
          subst hg
          obtain ⟨ps', hps, rfl⟩ := map_eq_ok_iff.mp h
          exact .anyChar (hrec rfl List.suffix_rfl hps)
        · rename_i hany
          split at h
          · rename_i hg
            subst hg
            obtain ⟨⟨k, behind⟩, hread, h⟩ := bind_eq_ok_iff.mp h
            obtain ⟨ps', hps, rfl⟩ := map_eq_ok_iff.mp h
            have hsuffix := CharClass.read_suffix hread
            rw [piecesFrom_eq_drop, ← List.suffix_iff_eq_drop.mp hsuffix] at hps
            exact .oneOf hread (hrec rfl hsuffix hps)
          · rename_i hbracket
            obtain ⟨ps', hps, rfl⟩ := map_eq_ok_iff.mp h
            exact .literal hstar hany hbracket (hrec rfl List.suffix_rfl hps)

/-- **The pieces of a segment match the names that the segment matches.** -/
theorem HasPieces.match_iff {s : Segment} {ps : List Piece} (h : HasPieces s ps) {t : Text}
    (ht : '/' ∉ t) : PiecesMatch ps t ↔ SegmentMatches s t := by
  induction h generalizing t with
  | nil =>
    constructor
    · intro h; cases h; exact .nil
    · intro h; cases h; exact .nil
  | stars _ ih =>
    rw [ih ht]
    constructor
    · intro h
      rw [← List.nil_append t]
      exact .star h
    · intro h
      -- two stars that follow each other take what one of them could take
      cases h with
      | @star _ u t h =>
        cases h with
        | @star _ v w h => rw [← List.append_assoc]; exact .star h
        | literal hne => exact absurd rfl hne
      | literal hne => exact absurd rfl hne
  | star _ ih =>
    constructor
    · intro h
      cases h with
      | anyRun _ h => exact .star ((ih (fun hm => ht (List.mem_append_right _ hm))).mp h)
    · intro h
      cases h with
      | @star _ u w h =>
        exact .anyRun (fun hm => ht (List.mem_append_left _ hm))
          ((ih (fun hm => ht (List.mem_append_right _ hm))).mpr h)
      | literal hne => exact absurd rfl hne
  | anyChar _ ih =>
    constructor
    · intro h
      cases h with
      | anyChar _ h => exact .anyChar ((ih (List.not_mem_of_not_mem_cons ht)).mp h)
    · intro h
      cases h with
      | anyChar h =>
        obtain ⟨hc, ht⟩ := List.ne_and_not_mem_of_not_mem_cons ht
        exact .anyChar (Ne.symm hc) ((ih ht).mpr h)
      | literal _ hne => exact absurd rfl hne
  | oneOf hread _ ih =>
    constructor
    · intro h
      cases h with
      | oneOf hk h => exact .oneOf hread hk ((ih (List.not_mem_of_not_mem_cons ht)).mp h)
    · intro h
      cases h with
      | oneOf hread' hk h =>
        cases hread.symm.trans hread'
        exact .oneOf hk ((ih (List.not_mem_of_not_mem_cons ht)).mpr h)
      | literal _ _ hne => exact absurd rfl hne
  | literal h₁ h₂ h₃ _ ih =>
    constructor
    · intro h
      cases h with
      | char h => exact .literal h₁ h₂ h₃ ((ih (List.not_mem_of_not_mem_cons ht)).mp h)
    · intro h
      cases h with
      | star => exact absurd rfl h₁
      | anyChar => exact absurd rfl h₂
      | oneOf => exact absurd rfl h₃
      | literal _ _ _ h => exact .char ((ih (List.not_mem_of_not_mem_cons ht)).mpr h)

/-- A segment without slashes matches texts without slashes only. -/
theorem HasPieces.slash_not_mem {s : Segment} {ps : List Piece} (h : HasPieces s ps)
    (hs : ∀ g ∈ s, g.char ≠ '/') {m : Text} (hm : PiecesMatch ps m) : '/' ∉ m := by
  rw [← List.count_eq_zero, hm.count_slash, List.count_eq_zero]
  clear hm
  induction h with
  | nil => exact List.not_mem_nil
  | stars _ ih => exact ih (fun g hg => hs g (List.mem_cons_of_mem _ hg))
  | star _ ih | anyChar _ ih =>
    intro hm
    rcases List.mem_cons.mp hm with h | h
    · cases h
    · exact ih (fun g hg => hs g (List.mem_cons_of_mem _ hg)) h
  | oneOf hread _ ih =>
    intro hm
    rcases List.mem_cons.mp hm with h | h
    · cases h
    · exact ih (fun g hg => hs g
        (List.mem_cons_of_mem _ ((CharClass.read_suffix hread).subset hg))) h
  | @literal g _ _ _ _ _ _ ih =>
    intro hm
    rcases List.mem_cons.mp hm with h | h
    · exact hs g List.mem_cons_self (Piece.char.inj h).symm
    · exact ih (fun g hg => hs g (List.mem_cons_of_mem _ hg)) h

/-! ## Segments in a row -/

theorem not_globMatches_nil {ss : List Segment} (hss : ss ≠ []) : ¬ GlobMatches ss [] := by
  intro h
  generalize hcs : ([] : List Text) = cs at h
  induction h with
  | nil => exact hss rfl
  | rest hne => exact hne hcs.symm
  | globstar hne _ ih => exact ih hne (List.append_eq_nil_iff.mp hcs.symm).2.symm
  | component => cases hcs

theorem globMatches_globstar_cons_iff {s : Segment} {ss : List Segment} {cs : List Text} :
    GlobMatches (globstar :: s :: ss) cs ↔
      ∃ ds bs, cs = ds ++ bs ∧ bs ≠ [] ∧ GlobMatches (s :: ss) bs := by
  constructor
  · intro hm
    cases hm with
    | @globstar _ ds bs _ hm =>
      have hb : bs ≠ [] := fun e => not_globMatches_nil (List.cons_ne_nil s ss) (e ▸ hm)
      exact ⟨ds, bs, rfl, hb, hm⟩
    | component hne => exact absurd rfl hne
  · rintro ⟨ds, bs, rfl, -, hm⟩
    exact .globstar (List.cons_ne_nil s ss) hm

theorem globMatches_component_cons_iff {s s' : Segment} {ss : List Segment} {cs : List Text}
    (hs : s ≠ globstar) : GlobMatches (s :: s' :: ss) cs ↔
      ∃ c bs, cs = c :: bs ∧ bs ≠ [] ∧ SegmentMatches s c ∧ GlobMatches (s' :: ss) bs := by
  constructor
  · intro hm
    cases hm with
    | globstar => exact absurd rfl hs
    | @component _ _ c bs _ hc hm =>
      have hb : bs ≠ [] := fun e => not_globMatches_nil (List.cons_ne_nil s' ss) (e ▸ hm)
      exact ⟨c, bs, rfl, hb, hc, hm⟩
  · rintro ⟨c, bs, rfl, -, hc, hm⟩
    exact .component hs hc hm

theorem globMatches_singleton_iff {s : Segment} {cs : List Text} (hs : s ≠ globstar) :
    GlobMatches [s] cs ↔ ∃ c, cs = [c] ∧ SegmentMatches s c := by
  constructor
  · intro hm
    cases hm with
    | rest => exact absurd rfl hs
    | globstar hne => exact absurd rfl hne
    | component _ hc hnil =>
      cases hnil
      exact ⟨_, rfl, hc⟩
  · rintro ⟨c, rfl, hc⟩
    exact .component hs hc .nil

/-- The step of a segment, and how it comes about. -/
theorem ofSegment_eq_ok_iff {s : Segment} {step : Step} :
    Step.ofSegment s = .ok step ↔
      (s = globstar ∧ step = .anyDepth) ∨
        (s ≠ globstar ∧ ∃ ps, pieces s = .ok ps ∧ step = .component ps) := by
  rw [Step.ofSegment]
  split
  · rename_i h
    constructor
    · exact fun e => Or.inl ⟨h, (Except.ok.inj e).symm⟩
    · rintro (⟨-, rfl⟩ | ⟨hne, -⟩)
      · rfl
      · exact absurd h hne
  · rename_i h
    rw [map_eq_ok_iff]
    constructor
    · rintro ⟨ps, hps, rfl⟩
      exact Or.inr ⟨h, ps, hps, rfl⟩
    · rintro (⟨heq, -⟩ | ⟨-, ps, hps, rfl⟩)
      · exact absurd heq h
      · exact ⟨ps, hps, rfl⟩

/-! ## Steps along the names of a path -/

section Names
open Text
variable {ps : List Piece} {step : Step} {steps : List Step} {cs : List Text}

theorem piecesMatch_joinWith_iff (hfree : ∀ {m}, PiecesMatch ps m → '/' ∉ m) (hne : cs ≠ [])
    (hcs : ∀ c ∈ cs, c.IsName) :
    PiecesMatch ps (joinWith '/' cs) ↔ ∃ c, cs = [c] ∧ PiecesMatch ps c := by
  constructor
  · intro hm
    refine ⟨joinWith '/' cs, ?_, hm⟩
    exact (splitOn_joinWith hne (fun c hc => (hcs c hc).2)).symm.trans
      (splitOn_of_not_mem (hfree hm))
  · rintro ⟨c, rfl, hm⟩
    exact hm

theorem stepsMatch_singleton_iff {t : Text} : StepsMatch [.component ps] t ↔ PiecesMatch ps t := by
  constructor
  · rintro (_ | hm)
    exact hm
  · exact .component

theorem stepsMatch_component_joinWith_iff (hfree : ∀ {m}, PiecesMatch ps m → '/' ∉ m)
    (hne : cs ≠ []) (hcs : ∀ c ∈ cs, c.IsName) :
    StepsMatch (.component ps :: step :: steps) (joinWith '/' cs) ↔
      ∃ c bs, cs = c :: bs ∧ bs ≠ [] ∧ PiecesMatch ps c ∧
        StepsMatch (step :: steps) (joinWith '/' bs) := by
  constructor
  · intro hm
    generalize ht : joinWith '/' cs = t at hm
    cases hm with
    | slash hm htail =>
      obtain ⟨as, bs, ha, hb, rfl, rfl, rfl⟩ :=
        (joinWith_eq_append_cons_iff (fun c hc => (hcs c hc).2) hne).mp ht
      obtain ⟨c, rfl, hm⟩ := (piecesMatch_joinWith_iff hfree ha
        (fun c hc => hcs c (List.mem_append_left bs hc))).mp hm
      exact ⟨c, bs, rfl, hb, hm, htail⟩
  · rintro ⟨c, bs, rfl, hb, hm, htail⟩
    rw [joinWith_cons '/' c hb]
    exact .slash hm htail

theorem stepsMatch_anyDepth_joinWith_iff (hne : cs ≠ []) (hcs : ∀ c ∈ cs, c.IsName) :
    StepsMatch (.anyDepth :: step :: steps) (joinWith '/' cs) ↔
      ∃ ds bs, cs = ds ++ bs ∧ bs ≠ [] ∧ StepsMatch (step :: steps) (joinWith '/' bs) := by
  constructor
  · intro hm
    generalize ht : joinWith '/' cs = t at hm
    cases hm with
    | none hm => exact ⟨[], cs, rfl, hne, ht ▸ hm⟩
    | some hm =>
      obtain ⟨ds, bs, -, hb, rfl, -, rfl⟩ :=
        (joinWith_eq_append_cons_iff (fun c hc => (hcs c hc).2) hne).mp ht
      exact ⟨ds, bs, rfl, hb, hm⟩
  · rintro ⟨ds, bs, rfl, hb, hm⟩
    by_cases hd : ds = []
    · subst hd
      exact .none hm
    · rw [joinWith_append '/' hd hb]
      exact .some hm

/-- **The steps of segments match a path exactly if the segments match its names.** -/
theorem stepsMatch_iff {ss : List Segment} (h : ss.mapM Step.ofSegment = .ok steps)
    (hss : ∀ s ∈ ss, ∀ g ∈ s, g.char ≠ '/') (hne : cs ≠ []) (hcs : ∀ c ∈ cs, c.IsName) :
    StepsMatch steps (joinWith '/' cs) ↔ GlobMatches ss cs := by
  have hpath : joinWith '/' cs ≠ [] := joinWith_ne_nil hne (fun c hc => (hcs c hc).1)
  induction ss generalizing steps cs with
  | nil =>
    obtain rfl := mapM_nil_eq_ok_iff.mp h
    refine iff_of_false ?_ ?_
    · generalize joinWith '/' cs = t at hpath
      rintro ⟨⟩
      exact hpath rfl
    · rintro ⟨⟩
      exact hne rfl
  | cons s ss ih =>
    obtain ⟨step, steps, hstep, hsteps, rfl⟩ := mapM_cons_eq_ok_iff.mp h
    -- the induction hypothesis, for the names behind the first ones
    have htail : ∀ {bs : List Text}, bs ≠ [] → (∀ b ∈ bs, b.IsName) →
        (StepsMatch steps (joinWith '/' bs) ↔ GlobMatches ss bs) := fun hb hbs =>
      ih hsteps (fun s hs => hss s (List.mem_cons_of_mem _ hs)) hb hbs
        (joinWith_ne_nil hb (fun b hm => (hbs b hm).1))
    rcases ofSegment_eq_ok_iff.mp hstep with ⟨rfl, rfl⟩ | ⟨hs, ps, hps, rfl⟩
    · cases ss with
      | nil =>
        obtain rfl := mapM_nil_eq_ok_iff.mp hsteps
        exact iff_of_true (.rest hpath) (.rest hne)
      | cons s' ss =>
        obtain ⟨step', steps, -, -, rfl⟩ := mapM_cons_eq_ok_iff.mp hsteps
        rw [stepsMatch_anyDepth_joinWith_iff hne hcs, globMatches_globstar_cons_iff]
        refine exists₂_congr fun ds bs => and_congr_right fun heq => and_congr_right fun hb => ?_
        exact htail hb (fun c hc => hcs c (heq ▸ List.mem_append_right ds hc))
    · have hpieces := hasPieces_of_pieces hps
      have hfree : ∀ {m}, PiecesMatch ps m → '/' ∉ m :=
        hpieces.slash_not_mem (hss s List.mem_cons_self)
      have hone : ∀ c ∈ cs, (PiecesMatch ps c ↔ SegmentMatches s c) := fun c hc =>
        hpieces.match_iff (hcs c hc).2
      cases ss with
      | nil =>
        obtain rfl := mapM_nil_eq_ok_iff.mp hsteps
        rw [stepsMatch_singleton_iff, piecesMatch_joinWith_iff hfree hne hcs,
          globMatches_singleton_iff hs]
        exact exists_congr fun c => and_congr_right fun heq => hone c (by simp [heq])
      | cons s' ss =>
        obtain ⟨step', steps, -, -, rfl⟩ := mapM_cons_eq_ok_iff.mp hsteps
        rw [stepsMatch_component_joinWith_iff hfree hne hcs, globMatches_component_cons_iff hs]
        refine exists₂_congr fun c bs => and_congr_right fun heq => and_congr_right fun hb => ?_
        exact and_congr (hone c (by simp [heq]))
          (htail hb (fun b hm => hcs b (heq ▸ List.mem_cons_of_mem c hm)))

end Names

/-! ## Patterns -/

/-- The glyphs of the segments are those of the body, bare slashes apart. -/
theorem mem_of_mem_cutAtSlashes {gs : List Glyph} {s : Segment} (hs : s ∈ cutAtSlashes gs)
    {g : Glyph} (hg : g ∈ s) : g ∈ gs ∧ g ≠ .bare '/' := by
  induction gs generalizing s with
  | nil =>
    obtain rfl := List.mem_singleton.mp hs
    cases hg
  | cons g' gs ih =>
    have htail : ∀ {s}, s ∈ cutAtSlashes gs → g ∈ s → g ∈ g' :: gs ∧ g ≠ .bare '/' :=
      fun hs hg => ⟨List.mem_cons_of_mem _ (ih hs hg).1, (ih hs hg).2⟩
    rw [cutAtSlashes] at hs
    split at hs
    · rcases List.mem_cons.mp hs with rfl | hs
      · cases hg
      · exact htail hs hg
    · rename_i hne
      have hhead : g = g' → g ∈ g' :: gs ∧ g ≠ .bare '/' := by
        rintro rfl
        exact ⟨List.mem_cons_self, hne⟩
      cases hcut : cutAtSlashes gs with
      | nil =>
        rw [hcut] at hs
        obtain rfl := List.mem_singleton.mp hs
        exact hhead (List.mem_singleton.mp hg)
      | cons s' more =>
        rw [hcut] at hs htail
        rcases List.mem_cons.mp hs with rfl | hs
        · rcases List.mem_cons.mp hg with rfl | hg
          · exact hhead rfl
          · exact htail List.mem_cons_self hg
        · exact htail (List.mem_cons_of_mem _ hs) hg

/-- Where no slash is escaped, no segment holds one. -/
theorem segments_slash_free {t : Text} {ss : List Segment} (h : segments t = .ok ss)
    (hesc : ∀ gs, glyphs t = .ok gs → ⟨'/', true⟩ ∉ gs) {s : Segment} (hs : s ∈ ss) {g : Glyph}
    (hg : g ∈ s) : g.char ≠ '/' := by
  obtain ⟨gs, hgs, rfl⟩ := map_eq_ok_iff.mp h
  obtain ⟨hmem, hbare⟩ := mem_of_mem_cutAtSlashes (List.mem_of_mem_filter hs) hg
  obtain ⟨c, escaped⟩ := g
  rintro rfl
  cases escaped with
  | false => exact hbare rfl
  | true => exact hesc gs hgs hmem

theorem mem_readLone {ss : List Segment} {s : Segment} (hs : s ∈ readLone ss) :
    s = star ∨ s ∈ ss := by
  rw [readLone] at hs
  split at hs
  · exact Or.inl (List.mem_singleton.mp hs)
  · exact Or.inr hs

/-- Nor does one that is read as `*` instead. -/
theorem readLone_slash_free {t : Text} {ss : List Segment} (h : segments t = .ok ss)
    (hesc : ∀ gs, glyphs t = .ok gs → ⟨'/', true⟩ ∉ gs) :
    ∀ s ∈ readLone ss, ∀ g ∈ s, g.char ≠ '/' := by
  intro s hs g hg
  rcases mem_readLone hs with rfl | hs
  · rw [List.mem_singleton.mp hg]
    decide
  · exact segments_slash_free h hesc hs hg

/-- What the pattern with a given body is made of. -/
theorem ofBody_eq_ok {body : PathBody} {p : PathPattern} (h : PathPattern.ofBody body = .ok p) :
    ∃ ss, segments body.text = .ok ss ∧ ss ≠ [] ∧
      (readLone ss).mapM Step.ofSegment = .ok p.steps ∧
      p.anchored = (body.leadingSlash || tiedBySlash (readLone ss)) ∧
      p.directoryOnly = body.directoryOnly := by
  rw [PathPattern.ofBody] at h
  obtain ⟨ss, hss, h⟩ := bind_eq_ok_iff.mp h
  refine ⟨ss, hss, ?_⟩
  cases ss with
  | nil => cases h
  | cons s ss =>
    rw [if_neg (by simp)] at h
    obtain ⟨steps, hsteps, h⟩ := bind_eq_ok_iff.mp h
    cases h
    exact ⟨List.cons_ne_nil s ss, hsteps, rfl, rfl⟩

theorem mapM_ofSegment_ne_nil {ss : List Segment} {steps : List Step}
    (h : ss.mapM Step.ofSegment = .ok steps) (hne : ss ≠ []) : steps ≠ [] := by
  cases ss with
  | nil => exact absurd rfl hne
  | cons s ss =>
    obtain ⟨step, steps, -, -, rfl⟩ := mapM_cons_eq_ok_iff.mp h
    exact List.cons_ne_nil step steps

/-- A pattern that is not anchored matches a path if its steps match some end of it. -/
theorem PathPattern.matches_joinWith_iff {p : PathPattern} (hsteps : p.steps ≠ [])
    {cs : List Text} (hne : cs ≠ []) (hcs : ∀ c ∈ cs, c.IsName) :
    p.Matches (Text.joinWith '/' cs) ↔
      if p.anchored then StepsMatch p.steps (Text.joinWith '/' cs)
      else ∃ bs, bs ≠ [] ∧ bs <:+ cs ∧ StepsMatch p.steps (Text.joinWith '/' bs) := by
  rw [PathPattern.Matches, PathPattern.allSteps]
  split
  · exact Iff.rfl
  · obtain ⟨step, steps, heq⟩ := List.exists_cons_of_ne_nil hsteps
    rw [heq, stepsMatch_anyDepth_joinWith_iff hne hcs]
    constructor
    · rintro ⟨ds, bs, rfl, hb, hm⟩
      exact ⟨bs, hb, List.suffix_append ds bs, hm⟩
    · rintro ⟨bs, hb, ⟨ds, rfl⟩, hm⟩
      exact ⟨ds, bs, rfl, hb, hm⟩

/-- **The pattern with a given body matches a path exactly if its segments match the names of the
path**, or those of some end of it where the pattern is not anchored. -/
theorem PathPattern.matches_joinWith_iff_globMatches {body : PathBody} {p : PathPattern}
    {ss : List Segment} (hp : PathPattern.ofBody body = .ok p) (hss : segments body.text = .ok ss)
    (hesc : ∀ gs, glyphs body.text = .ok gs → ⟨'/', true⟩ ∉ gs)
    {cs : List Text} (hne : cs ≠ []) (hcs : ∀ c ∈ cs, c.IsName) :
    p.Matches (Text.joinWith '/' cs) ↔
      if p.anchored then GlobMatches (readLone ss) cs
      else ∃ bs, bs ≠ [] ∧ bs <:+ cs ∧ GlobMatches (readLone ss) bs := by
  obtain ⟨ss', hss', hssne, hsteps, -, -⟩ := ofBody_eq_ok hp
  cases hss.symm.trans hss'
  have hlone : readLone ss ≠ [] := by
    rw [readLone]
    split
    · exact List.cons_ne_nil _ _
    · exact hssne
  have hfree := readLone_slash_free hss hesc
  have hiff : ∀ bs, bs ≠ [] → bs <:+ cs →
      (StepsMatch p.steps (Text.joinWith '/' bs) ↔ GlobMatches (readLone ss) bs) := by
    intro bs hb hsuf
    exact stepsMatch_iff hsteps hfree hb (fun c hc => hcs c (hsuf.subset hc))
  rw [matches_joinWith_iff (mapM_ofSegment_ne_nil hsteps hlone) hne hcs]
  split
  · exact hiff cs hne List.suffix_rfl
  · constructor
    · rintro ⟨bs, hb, hsuf, hm⟩
      exact ⟨bs, hb, hsuf, (hiff bs hb hsuf).mp hm⟩
    · rintro ⟨bs, hb, hsuf, hm⟩
      exact ⟨bs, hb, hsuf, (hiff bs hb hsuf).mpr hm⟩

end PathFilter.Pattern
