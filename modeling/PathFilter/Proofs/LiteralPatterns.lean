import PathFilter.Proofs.CompiledLines
import PathFilter.Proofs.Pathnames

/-! # Patterns that are written as paths

The names of a path, written behind a slash and without a character that has a meaning of its own,
are a pattern that asks for exactly this path.

* The body of names is read as one step for each name (`ofBody_joinWith`), and matches the path of
  these names and no other (`stepsMatch_literalSteps_iff`).
* Some of its steps match a directory exactly if the directory is on the way to the path
  (`matchesLeading_literalSteps_iff`).
* **The line of a path holds the pattern of its names** (`ofLine?_literal`).
-/

namespace PathFilter
open Text

namespace Pattern
variable {α : Type} {t m : Text} {cs : List Text}

/-- Characters that stand for themselves in a pattern. -/
def IsPlainChar (c : Char) : Prop := c ≠ '*' ∧ c ≠ '?' ∧ c ≠ '[' ∧ c ≠ '\\'

instance (c : Char) : Decidable (IsPlainChar c) := inferInstanceAs (Decidable (_ ∧ _))

/-- A text that stands for itself, also at the end of a line. -/
structure IsPlain (t : Text) : Prop where
  chars : ∀ c ∈ t, IsPlainChar c
  last : ∀ c ∈ t.getLast?, ¬ IsLineBlank c ∧ c ≠ '\r' ∧ c ≠ '\n'

/-- The steps that ask for names and nothing else. -/
def literalSteps (cs : List Text) : List Step := cs.map fun c => .component (c.map .char)

/-! ## Reading -/

theorem glyphs_of_plain (h : ∀ c ∈ t, IsPlainChar c) : glyphs t = .ok (t.map .bare) := by
  induction t with
  | nil => rfl
  | cons c t ih =>
    have hc : c ≠ '\\' := (h c List.mem_cons_self).2.2.2
    rw [glyphs, ih fun d hd => h d (List.mem_cons_of_mem c hd)]
    · rfl
    · exact fun hnil => absurd hnil hc
    · exact fun d rest hcons => absurd hcons hc

theorem cutAtSlashes_map_bare (t : Text) :
    cutAtSlashes (t.map .bare) = (splitOn '/' t).map (List.map .bare) := by
  induction t with
  | nil => rfl
  | cons c t ih =>
    rw [List.map_cons, cutAtSlashes, splitOn, ih]
    by_cases hc : c = '/'
    · rw [if_pos (congrArg Glyph.bare hc), if_pos hc]
      rfl
    · rw [if_neg fun h => hc (congrArg Glyph.char h), if_neg hc]
      cases hsplit : splitOn '/' t with
      | nil => exact absurd hsplit (splitOn_ne_nil '/' t)
      | cons u us => rfl

theorem pieces_map_bare (h : ∀ c ∈ t, IsPlainChar c) :
    pieces (t.map .bare) = .ok (t.map .char) := by
  induction t with
  | nil => rfl
  | cons c t ih =>
    obtain ⟨hstar, hany, hopen, -⟩ := h c List.mem_cons_self
    rw [List.map_cons, pieces_literal (by simpa [Glyph.bare] using hstar)
      (by simpa [Glyph.bare] using hany) (by simpa [Glyph.bare] using hopen),
      ih fun d hd => h d (List.mem_cons_of_mem c hd)]
    rfl

theorem ofSegment_map_bare (h : ∀ c ∈ t, IsPlainChar c) :
    Step.ofSegment (t.map .bare) = .ok (.component (t.map .char)) := by
  have hne : t.map .bare ≠ globstar := by
    intro heq
    have hstar : Glyph.bare '*' ∈ t.map .bare := heq ▸ List.mem_cons_self
    obtain ⟨c, hc, hcstar⟩ := List.mem_map.mp hstar
    exact (h c hc).1 (congrArg Glyph.char hcstar)
  rw [Step.ofSegment, if_neg hne, pieces_map_bare h]
  rfl

theorem mem_joinWith_of_mem {sep c : Char} {us : List Text} {u : Text} (hu : u ∈ us)
    (hc : c ∈ u) : c ∈ joinWith sep us := by
  induction us with
  | nil => cases hu
  | cons v us ih =>
    by_cases hus : us = []
    · subst hus
      obtain rfl := List.mem_singleton.mp hu
      exact hc
    · rw [joinWith_cons sep v hus]
      rcases List.mem_cons.mp hu with rfl | hu
      · exact List.mem_append_left _ hc
      · exact List.mem_append_right v (List.mem_cons_of_mem sep (ih hu))

/-- **Names that stand for themselves are read as the steps that ask for them.** -/
theorem ofBody_joinWith (hne : cs ≠ []) (hcs : ∀ c ∈ cs, c.IsName)
    (hplain : ∀ c ∈ joinWith '/' cs, IsPlainChar c) (directoryOnly : Bool) :
    PathPattern.ofBody ⟨joinWith '/' cs, true, directoryOnly⟩ =
      .ok ⟨literalSteps cs, true, directoryOnly⟩ := by
  have hchars : ∀ c ∈ cs, ∀ d ∈ c, IsPlainChar d := fun c hc d hd =>
    hplain d (mem_joinWith_of_mem hc hd)
  have hsegments : segments (joinWith '/' cs) = .ok (cs.map (List.map .bare)) := by
    rw [segments, glyphs_of_plain hplain, Except.map, cutAtSlashes_map_bare,
      splitOn_joinWith hne fun c hc => (hcs c hc).2]
    refine congrArg Except.ok (List.filter_eq_self.mpr fun s hs => ?_)
    obtain ⟨c, hc, rfl⟩ := List.mem_map.mp hs
    simpa using (hcs c hc).1
  have hlone : readLone (cs.map (List.map .bare)) = cs.map (List.map .bare) := by
    refine if_neg fun h => ?_
    obtain ⟨c, hc, hstar⟩ := List.mem_map.mp (h ▸ List.mem_singleton_self globstar)
    have hmem : Glyph.bare '*' ∈ c.map Glyph.bare := hstar ▸ List.mem_cons_self
    obtain ⟨d, hd, heq⟩ := List.mem_map.mp hmem
    exact (hchars c hc d hd).1 (congrArg Glyph.char heq)
  have hsteps : (readLone (cs.map (List.map .bare))).mapM Step.ofSegment =
      .ok (literalSteps cs) := by
    rw [hlone]
    exact mapM_map_eq_ok fun c hc => ofSegment_map_bare (hchars c hc)
  rw [PathPattern.ofBody, hsegments]
  obtain ⟨c, cs, rfl⟩ := List.exists_cons_of_ne_nil hne
  refine bind_eq_ok_iff.mpr ⟨_, rfl, ?_⟩
  exact bind_eq_ok_iff.mpr ⟨_, hsteps, rfl⟩

/-! ## Matching -/

theorem piecesMatch_map_char_iff : PiecesMatch (t.map .char) m ↔ m = t := by
  induction t generalizing m with
  | nil =>
    constructor
    · rintro ⟨⟩
      rfl
    · rintro rfl
      exact .nil
  | cons c t ih =>
    constructor
    · intro h
      cases h with
      | char hm => rw [ih.mp hm]
    · rintro rfl
      exact .char (ih.mpr rfl)

/-- The steps of names match the path of these names, and no other. -/
theorem stepsMatch_literalSteps_iff (hne : cs ≠ []) :
    StepsMatch (literalSteps cs) t ↔ t = joinWith '/' cs := by
  induction cs generalizing t with
  | nil => exact absurd rfl hne
  | cons c cs ih =>
    cases cs with
    | nil => exact stepsMatch_singleton_iff.trans piecesMatch_map_char_iff
    | cons d ds =>
      constructor
      · intro h
        cases h with
        | slash hm ht =>
          rw [piecesMatch_map_char_iff.mp hm, (ih (List.cons_ne_nil d ds)).mp ht]
          rfl
      · rintro rfl
        exact .slash (piecesMatch_map_char_iff.mpr rfl) ((ih (List.cons_ne_nil d ds)).mpr rfl)

theorem matchPieces_map_char (next : Text → Option α) (t m : Text) :
    matchPieces next (t.map .char) m = (t.isPrefixOf? m).bind next := by
  induction t generalizing m with
  | nil => rfl
  | cons c t ih =>
    cases m with
    | nil => rfl
    | cons d m =>
      rw [List.map_cons, matchPieces, List.isPrefixOf?, ih]
      by_cases hcd : d = c
      · simp [hcd]
      · rw [if_neg hcd, if_neg (by simpa using Ne.symm hcd)]
        rfl

/-- A first step that asks for a name matches a directory of that name, or leads into it. -/
theorem matchesLeading_map_char_cons {c : Text} {step : Step} {steps : List Step} :
    matchesLeading (.component (c.map .char) :: step :: steps) t = true ↔
      ∃ rest, t = c ++ rest ∧
        (rest = [] ∨
          ∃ below, rest = '/' :: below ∧ matchesLeading (step :: steps) below = true) := by
  rw [matchesLeading, matchPieces_map_char]
  constructor
  · intro h
    obtain ⟨u, hu⟩ := Option.isSome_iff_exists.mp h
    obtain ⟨rest, hrest, hnext⟩ := Option.bind_eq_some_iff.mp hu
    refine ⟨rest, (List.isPrefixOf?_eq_some_iff_append_eq.mp hrest).symm, ?_⟩
    by_cases hnil : rest = []
    · exact .inl hnil
    · rw [if_neg (by simpa using hnil)] at hnext
      obtain ⟨below, rfl, hbelow⟩ := behindSlash_eq_some hnext
      refine .inr ⟨below, rfl, ?_⟩
      by_contra hno
      rw [if_neg hno] at hbelow
      cases hbelow
  · rintro ⟨rest, rfl, hrest⟩
    rw [List.isPrefixOf?_eq_some_iff_append_eq.mpr rfl, Option.bind_some]
    rcases hrest with rfl | ⟨below, rfl, hbelow⟩
    · rfl
    · simp [behindSlash, hbelow]

/-- **Some of the steps of names match a directory exactly if it is met on the way to the path.** -/
theorem matchesLeading_literalSteps_iff :
    matchesLeading (literalSteps cs) t = true ↔
      ∃ as bs, as ≠ [] ∧ bs ≠ [] ∧ cs = as ++ bs ∧ t = joinWith '/' as := by
  induction cs generalizing t with
  | nil =>
    refine iff_of_false Bool.false_ne_true ?_
    rintro ⟨as, bs, has, -, h, -⟩
    exact has (List.append_eq_nil_iff.mp h.symm).1
  | cons c cs ih =>
    cases cs with
    | nil =>
      refine iff_of_false Bool.false_ne_true ?_
      rintro ⟨as, bs, has, hbs, h, -⟩
      rcases List.singleton_eq_append_iff.mp h with ⟨rfl, -⟩ | ⟨-, rfl⟩
      · exact has rfl
      · exact hbs rfl
    | cons d ds =>
      refine matchesLeading_map_char_cons.trans ?_
      constructor
      · rintro ⟨rest, rfl, rfl | ⟨below, rfl, hbelow⟩⟩
        · exact ⟨[c], d :: ds, by simp, by simp, rfl, by simp [joinWith]⟩
        · obtain ⟨as, bs, has, hbs, heq, rfl⟩ := ih.mp hbelow
          exact ⟨c :: as, bs, by simp, hbs, by rw [heq]; rfl, (joinWith_cons '/' c has).symm⟩
      · rintro ⟨as, bs, has, hbs, heq, rfl⟩
        obtain ⟨a, as, rfl⟩ := List.exists_cons_of_ne_nil has
        obtain ⟨rfl, htail⟩ := List.cons.inj heq
        by_cases has' : as = []
        · subst has'
          exact ⟨[], by simp [joinWith], .inl rfl⟩
        · exact ⟨_, joinWith_cons '/' c has',
            .inr ⟨_, rfl, ih.mpr ⟨as, bs, has', hbs, htail, rfl⟩⟩⟩

namespace PathPattern
variable {path : Text} {directoryOnly : Bool}

/-- The pattern of names, of an include list, accepts their path and what lies below it. -/
theorem accepts_literalSteps_iff (hne : cs ≠ []) {isDir : Bool} :
    accepts ⟨literalSteps cs, true, directoryOnly⟩ true path isDir = true ↔
      (path = joinWith '/' cs ∧ (directoryOnly = true → isDir = true)) ∨
        ∃ below, path = joinWith '/' cs ++ '/' :: below := by
  have hmatches : ∀ t, Matches ⟨literalSteps cs, true, directoryOnly⟩ t ↔ t = joinWith '/' cs :=
    fun t => stepsMatch_literalSteps_iff hne
  rw [accepts_true_iff, hmatches]
  refine or_congr Iff.rfl ?_
  constructor
  · rintro ⟨-, m, below, rfl, hm⟩
    exact ⟨below, by rw [(hmatches m).mp hm]⟩
  · rintro ⟨below, rfl⟩
    refine ⟨fun h => ?_, _, below, rfl, (hmatches _).mpr rfl⟩
    have hlength := congrArg List.length h
    simp at hlength

/-- It may match below the directories on the way to the path. -/
theorem mayMatchBelow_literalSteps_iff :
    mayMatchBelow ⟨literalSteps cs, true, directoryOnly⟩ true path = true ↔
      ∃ as bs, as ≠ [] ∧ bs ≠ [] ∧ cs = as ++ bs ∧ path = joinWith '/' as := by
  rw [mayMatchBelow, Bool.not_true, Bool.false_or, Bool.true_and, matchesLeading_literalSteps_iff]

end PathPattern

/-! ## Lines -/

theorem endsInBareSlash_of_endsIn_eq_false (h : t.endsIn '/' = false) :
    endsInBareSlash t = false := by
  rcases List.eq_nil_or_concat t with rfl | ⟨s, c, rfl⟩
  · rfl
  · rw [List.concat_eq_append] at h ⊢
    have hc : c ≠ '/' := by
      rintro rfl
      rw [endsIn_concat] at h
      cases h
    rw [endsInBareSlash, List.reverse_concat]
    simp [hc]

/-- Behind a slash, and before one that asks for a directory, stands the body of a line. -/
theorem PathBody.ofText_slash (hhead : t.head? ≠ some '/') (hend : t.endsIn '/' = false)
    (hne : t ≠ []) (hplain : ∀ c ∈ t, IsPlainChar c) (directoryOnly : Bool) :
    PathBody.ofText ('/' :: t ++ if directoryOnly then ['/'] else []) =
      ⟨t, true, directoryOnly⟩ := by
  have hend' : Text.endsIn '/' ('/' :: t) = false := (endsIn_append_right ['/'] hne '/').trans hend
  have hbody : ('/' :: t).dropWhile (· = '/') = t := by
    rw [List.dropWhile_cons_of_pos (by simp)]
    obtain ⟨c, s, rfl⟩ := List.exists_cons_of_ne_nil hne
    exact List.dropWhile_cons_of_neg (by simpa using hhead)
  cases directoryOnly with
  | false =>
    rw [if_neg Bool.false_ne_true, List.append_nil, ofText,
      endsInBareSlash_of_endsIn_eq_false hend', if_neg Bool.false_ne_true, hbody]
    rfl
  | true =>
    have hslash : endsInBareSlash ('/' :: t ++ ['/']) = true := by
      have hesc : escapedAfter ('/' :: t).reverse = false := by
        rw [List.reverse_cons, escapedAfter_append (by decide)]
        refine escapedAfter_of_head?_ne fun h => ?_
        have hmem : '\\' ∈ t := List.mem_reverse.mp (List.mem_of_mem_head? h)
        exact (hplain _ hmem).2.2.2 rfl
      rw [endsInBareSlash, List.reverse_concat]
      show (decide ('/' = '/') && !escapedAfter ('/' :: t).reverse) = true
      rw [hesc]
      rfl
    have hdrop : dropTrailing (· = '/') ('/' :: t ++ ['/']) = '/' :: t := by
      have hstep : dropTrailing (· = '/') ('/' :: t ++ ['/']) =
          dropTrailing (· = '/') ('/' :: t) := by
        simp [dropTrailing]
      rw [hstep, dropTrailing_of_endsIn_eq_false hend']
    rw [if_pos rfl, ofText, hslash, if_pos rfl, hdrop, hbody]
    rfl

end Pattern

namespace Rule
open Pattern
variable {root : Text} {allow : Bool} {cs : List Text}

/-- The path of names neither begins nor ends in a slash. -/
theorem joinWith_ends (hne : cs ≠ []) (hcs : ∀ c ∈ cs, c.IsName) :
    (joinWith '/' cs).head? ≠ some '/' ∧ (joinWith '/' cs).endsIn '/' = false := by
  obtain ⟨ds, c, rfl⟩ := List.eq_nil_or_concat cs |>.resolve_left hne
  rw [List.concat_eq_append] at hcs ⊢
  have hc : c.IsName := hcs c (by simp)
  rw [Path.joinWith_concat]
  refine ⟨Path.head?_dir_append_ne (fun d hd => hcs d (List.mem_append_left _ hd)) hc, ?_⟩
  obtain ⟨s, a, rfl, ha⟩ := hc.exists_concat
  rw [endsIn_append_right _ (by simp)]
  simpa [endsIn] using ha

/-- **The line of a path holds the pattern of its names**, with a slash at its end the one that
asks for a directory. -/
theorem ofLine?_literal (root : Text) (allow : Bool) (hne : cs ≠ []) (hcs : ∀ c ∈ cs, c.IsName)
    (hplain : IsPlain (joinWith '/' cs)) (directoryOnly : Bool) :
    ∃ line, ofLine? root allow ('/' :: joinWith '/' cs ++ if directoryOnly then ['/'] else []) =
      some (.path { line, root := Path.slashed root, negated := false, allow,
                    pattern := ⟨literalSteps cs, true, directoryOnly⟩ }) := by
  obtain ⟨hhead, hend⟩ := joinWith_ends hne hcs
  have hjoin : joinWith '/' cs ≠ [] := joinWith_ne_nil hne fun c hc => (hcs c hc).1
  have hbody := PathBody.ofText_slash hhead hend hjoin hplain.chars directoryOnly
  refine ⟨_, ofLine?_eq_path_iff.mpr ⟨false, _, _, ?_, ofBody_joinWith hne hcs hplain.chars
    directoryOnly, rfl⟩⟩
  have hstrip : stripLineEnd ('/' :: joinWith '/' cs ++ if directoryOnly then ['/'] else []) =
      '/' :: joinWith '/' cs ++ if directoryOnly then ['/'] else [] := by
    refine stripLineEnd_eq_self ?_
    cases directoryOnly with
    | false =>
      rw [if_neg Bool.false_ne_true, List.append_nil]
      show ∀ c ∈ (['/'] ++ joinWith '/' cs).getLast?, _
      rw [List.getLast?_append_of_ne_nil _ hjoin]
      exact hplain.last
    | true =>
      rw [if_pos rfl, List.getLast?_concat]
      rintro c ⟨⟩
      exact ⟨by simp [IsLineBlank], by decide, by decide⟩
  rw [Line.read, hstrip, ← hbody]
  rfl

end Rule
end PathFilter
