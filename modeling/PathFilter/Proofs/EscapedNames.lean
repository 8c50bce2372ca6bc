import PathFilter.Proofs.LiteralPatterns

/-! # Patterns of one segment, and names that are escaped

A segment can be written as the whole of a line if nothing at the ends of the line is taken for
something else: a mark for a comment or a negation, a blank that is dropped, a line end
(`Segment.StandsAlone`).

* What is written as glyphs is read as these glyphs (`glyphs_toText`), and a look back from the end
  of the text sees which of them are escaped (`exists_reverse_toText_concat`).
* **The line of a segment holds the pattern of its pieces**, which may match at any depth
  (`ofLine?_segment`).
* With a backslash before each of its characters, a name is such a segment, whatever it is made of.
  **The line of an escaped name matches exactly what bears that name** (`ofLine?_escaped`).
-/

namespace PathFilter
open Text

namespace Pattern
variable {g : Glyph} {s : Segment}

/-! ## Glyphs and their text -/

/-- What is written as glyphs is read as these, if no backslash among them lacks a partner. -/
theorem glyphs_toText (hs : Paired s) : glyphs (Segment.toText s) = .ok s := by
  induction s with
  | nil => rfl
  | cons g s ih =>
    obtain ⟨c, escaped⟩ := g
    have hrest := ih hs.tail
    rw [Segment.toText_cons]
    cases escaped with
    | true =>
      show glyphs ('\\' :: c :: Segment.toText s) = _
      rw [glyphs, hrest]
      rfl
    | false =>
      have hc : c ≠ '\\' := fun h => hs ⟨c, false⟩ List.mem_cons_self (congrArg Glyph.bare h)
      show glyphs (c :: Segment.toText s) = _
      rw [glyphs, hrest]
      · rfl
      · exact fun hnil => absurd hnil hc
      · exact fun d rest hcons => absurd hcons hc

/-- A look back from the end of a segment finds its last character, and whether that is escaped. -/
theorem exists_reverse_toText_concat (hs : Paired (s ++ [g])) :
    ∃ before, (Segment.toText (s ++ [g])).reverse = g.char :: before ∧
      escapedAfter before = g.escaped := by
  have hpaired : Paired s := fun h hmem => hs h (List.mem_append_left _ hmem)
  have hbefore : escapedAfter (Segment.toText s).reverse = false :=
    (exists_glyphs_eq_ok_iff _).mp ⟨s, glyphs_toText hpaired⟩
  obtain ⟨c, escaped⟩ := g
  rw [Segment.toText_append, List.reverse_append]
  cases escaped with
  | true => exact ⟨'\\' :: (Segment.toText s).reverse, rfl,
      (escapedAfter_cons_backslash _).trans (congrArg not hbefore)⟩
  | false => exact ⟨(Segment.toText s).reverse, rfl, hbefore⟩

/-- A segment without a bare slash is not cut. -/
theorem cutAtSlashes_of_not_mem (hs : .bare '/' ∉ s) : cutAtSlashes s = [s] := by
  induction s with
  | nil => rfl
  | cons g s ih =>
    obtain ⟨hg, hs⟩ := List.ne_and_not_mem_of_not_mem_cons hs
    rw [cutAtSlashes, if_neg (Ne.symm hg), ih hs]

/-! ## Segments as lines -/

/-- A segment that is read back where it is written as the whole of a line. -/
structure Segment.StandsAlone (s : Segment) : Prop where
  ne_nil : s ≠ []
  paired : Paired s
  slash : .bare '/' ∉ s
  head : ∀ g ∈ s.head?, g ≠ .bare '#' ∧ g ≠ .bare '!'
  last : ∀ g ∈ s.getLast?,
    g.char ≠ '\n' ∧ g.char ≠ '\r' ∧ (g.escaped = false → ¬ IsLineBlank g.char)

namespace Segment.StandsAlone
variable (hs : s.StandsAlone)
include hs

/-- The end of the line of a segment: its last glyph. -/
theorem exists_concat : ∃ r g before, s = r ++ [g] ∧ g ∈ s.getLast? ∧
    s.toText.reverse = g.char :: before ∧ escapedAfter before = g.escaped := by
  obtain ⟨r, g, rfl⟩ := List.eq_nil_or_concat s |>.resolve_left hs.ne_nil
  rw [List.concat_eq_append] at hs ⊢
  obtain ⟨before, hreverse, hescaped⟩ := exists_reverse_toText_concat hs.paired
  exact ⟨r, g, before, rfl, by simp, hreverse, hescaped⟩

/-- Nothing is dropped at the end of the line. -/
theorem stripLineEnd_toText : stripLineEnd s.toText = s.toText := by
  obtain ⟨_, g, before, -, hg, hreverse, hescaped⟩ := hs.exists_concat
  obtain ⟨hn, hr, hblank⟩ := hs.last g hg
  have hlast : s.toText.getLast? = some g.char := by
    rw [← List.head?_reverse, hreverse]
    rfl
  rw [stripLineEnd_of_getLast? (by simpa [hlast] using hn) (by simpa [hlast] using hr), hreverse,
    dropBlanksReversed, hescaped, if_neg, ← hreverse, List.reverse_reverse]
  cases hesc : g.escaped with
  | true => simp
  | false => simpa [IsLineBlank] using hblank hesc

theorem endsInBareSlash_toText : endsInBareSlash s.toText = false := by
  obtain ⟨r, g, before, heq, -, hreverse, hescaped⟩ := hs.exists_concat
  rw [endsInBareSlash, hreverse]
  show (decide (g.char = '/') && !escapedAfter before) = false
  rw [hescaped]
  obtain ⟨c, escaped⟩ := g
  cases escaped with
  | true => simp
  | false =>
    have hc : c ≠ '/' := by
      rintro rfl
      exact hs.slash (heq ▸ List.mem_append_right r List.mem_cons_self)
    simp [hc]

/-- The line begins with nothing that is taken for something else. -/
theorem exists_cons : ∃ c rest, s.toText = c :: rest ∧ c ≠ '#' ∧ c ≠ '!' ∧ c ≠ '/' := by
  obtain ⟨⟨c, escaped⟩, r, rfl⟩ := List.exists_cons_of_ne_nil hs.ne_nil
  obtain ⟨hcomment, hmark⟩ := hs.head _ rfl
  cases escaped with
  | true => exact ⟨'\\', c :: toText r, rfl, by decide, by decide, by decide⟩
  | false =>
    refine ⟨c, toText r, rfl, ?_, ?_, ?_⟩
    · exact fun h => hcomment (congrArg Glyph.bare h)
    · exact fun h => hmark (congrArg Glyph.bare h)
    · rintro rfl
      exact hs.slash List.mem_cons_self

theorem pathBody_toText : PathBody.ofText s.toText = ⟨s.toText, false, false⟩ := by
  obtain ⟨c, rest, htext, -, -, hslash⟩ := hs.exists_cons
  have hhead : (s.toText.head? == some '/') = false := by
    rw [htext]
    simpa using hslash
  rw [PathBody.ofText, hs.endsInBareSlash_toText]
  simp [hhead]

/-- The line of a segment asks for paths, and its body is the segment. -/
theorem read_toText : Line.read s.toText = some (.path false ⟨s.toText, false, false⟩) := by
  obtain ⟨c, rest, htext, hcomment, hmark, -⟩ := hs.exists_cons
  rw [← hs.pathBody_toText, Line.read, hs.stripLineEnd_toText, htext]
  split <;> simp_all

theorem segments_toText : segments s.toText = .ok [s] := by
  rw [segments, glyphs_toText hs.paired, Except.map, cutAtSlashes_of_not_mem hs.slash]
  simp [hs.ne_nil]

/-- The body of a segment is the pattern of its pieces. -/
theorem ofBody_toText (hstar : s ≠ globstar) {ps : List Piece} (hps : pieces s = .ok ps) :
    PathPattern.ofBody ⟨s.toText, false, false⟩ = .ok ⟨[.component ps], false, false⟩ := by
  have hlone : readLone [s] = [s] := if_neg fun h => hstar (List.singleton_inj.mp h)
  have htied : tiedBySlash [s] = false := by
    simp [tiedBySlash, hstar]
  have hsteps : (readLone [s]).mapM Step.ofSegment = .ok [.component ps] := by
    rw [hlone]
    refine mapM_cons_eq_ok_iff.mpr ⟨.component ps, [], ?_, rfl, rfl⟩
    exact ofSegment_eq_ok_iff.mpr (.inr ⟨hstar, ps, hps, rfl⟩)
  rw [PathPattern.ofBody, hs.segments_toText]
  refine bind_eq_ok_iff.mpr ⟨_, rfl, bind_eq_ok_iff.mpr ⟨_, hsteps, ?_⟩⟩
  show Except.ok (PathPattern.mk _ (false || tiedBySlash (readLone [s])) _) = _
  rw [hlone, htied]
  rfl

end Segment.StandsAlone
end Pattern

namespace Rule
open Pattern
variable {s : Segment} {cs : List Text} {c : Candidate}

/-- **The line of a segment holds the pattern of its pieces.** -/
theorem ofLine?_segment (hs : s.StandsAlone) (hstar : s ≠ globstar) {ps : List Piece}
    (hps : pieces s = .ok ps) (root : Text) (allow : Bool) :
    ofLine? root allow s.toText = some (.path
      { line := s.toText, root := Path.slashed root, negated := false, allow
        pattern := ⟨[.component ps], false, false⟩ }) :=
  ofLine?_eq_path_iff.mpr ⟨false, _, _, hs.read_toText, hs.ofBody_toText hstar hps, rfl⟩

/-! ## Escaped names -/

/-- A name with a backslash before each of its characters. -/
def escapedLine (name : Text) : Text := name.flatMap fun c => ['\\', c]

/-- A name as a segment all of whose characters are escaped. -/
def escapedSegment (name : Text) : Segment := name.map fun c => ⟨c, true⟩

theorem toText_escapedSegment (name : Text) :
    (escapedSegment name).toText = escapedLine name := List.flatMap_map ..

/-- An escaped name is read back, whatever it is made of, unless it holds a slash or the line would
end in a line end. -/
theorem standsAlone_escapedSegment {name : Text} (hname : name.IsName)
    (hlast : ∀ c ∈ name.getLast?, c ≠ '\n' ∧ c ≠ '\r') : (escapedSegment name).StandsAlone := by
  have hescaped : ∀ a, .bare a ∉ escapedSegment name := by simp [escapedSegment, Glyph.bare]
  refine ⟨by simpa [escapedSegment] using hname.1, fun g hg => ?_, hescaped '/', fun g hg => ?_,
    fun g hg => ?_⟩
  · rintro rfl
    exact hescaped '\\' hg
  · have hmem : g ∈ escapedSegment name := List.mem_of_mem_head? hg
    exact ⟨fun h => hescaped '#' (h ▸ hmem), fun h => hescaped '!' (h ▸ hmem)⟩
  · rw [escapedSegment, List.getLast?_map] at hg
    obtain ⟨c, hc, rfl⟩ := Option.map_eq_some_iff.mp hg
    exact ⟨(hlast c hc).1, (hlast c hc).2, fun h => Bool.noConfusion h⟩

theorem pieces_escapedSegment (name : Text) :
    pieces (escapedSegment name) = .ok (name.map .char) := by
  induction name with
  | nil => rfl
  | cons c name ih =>
    rw [escapedSegment, List.map_cons, ← escapedSegment,
      pieces_literal (by simp [Glyph.bare]) (by simp [Glyph.bare]) (by simp [Glyph.bare]), ih]
    rfl

/-- The pattern of a name, which may match at any depth, matches the paths whose last component is
the name. -/
theorem matches_name_iff {name : Text} (hname : '/' ∉ name) (directoryOnly : Bool) (hne : cs ≠ [])
    (hcs : ∀ d ∈ cs, d.IsName) :
    PathPattern.Matches ⟨literalSteps [name], false, directoryOnly⟩ (joinWith '/' cs) ↔
      cs.getLast? = some name := by
  rw [PathPattern.matches_joinWith_iff (by simp [literalSteps]) hne hcs, if_neg Bool.false_ne_true]
  simp only [stepsMatch_literalSteps_iff (List.cons_ne_nil name [])]
  constructor
  · rintro ⟨bs, hbs, ⟨ds, rfl⟩, hjoin⟩
    -- a name holds no slash, so it is the only component
    have hone : bs = [name] := by
      rw [← splitOn_joinWith hbs fun d hd => (hcs d (List.mem_append_right ds hd)).2, hjoin]
      exact splitOn_of_not_mem hname
    rw [hone, List.getLast?_concat]
  · intro hlast
    obtain ⟨ds, rfl⟩ := List.getLast?_eq_some_iff.mp hlast
    exact ⟨[name], by simp, List.suffix_append ds [name], rfl⟩

/-- **Every name can be written as a pattern.**  The line with a backslash before each character of
the name has a rule that is not negated, that is not tied to its root and does not ask for
directories, and that matches a candidate exactly if its last component is the name.  A name holds
no slash, and a line does not end in a line end. -/
theorem ofLine?_escaped {name : Text} (hname : name.IsName)
    (hlast : ∀ c ∈ name.getLast?, c ≠ '\n' ∧ c ≠ '\r') (root : Text) :
    ∃ r : PathRule, ofLine? root false (escapedLine name) = some (.path r) ∧
      r.negated = false ∧ r.pattern.anchored = false ∧ r.pattern.directoryOnly = false ∧
      ∀ (c : Candidate) (cs : List Text), cs ≠ [] → (∀ d ∈ cs, d.IsName) →
        c.path = Path.slashed root ++ joinWith '/' cs →
          ((Rule.path r).appliesTo c = true ↔ cs.getLast? = some name) := by
  have hs := standsAlone_escapedSegment hname hlast
  have hstar : escapedSegment name ≠ globstar := by
    intro h
    have hmem : Glyph.bare '*' ∈ escapedSegment name := h ▸ List.mem_cons_self
    simp [escapedSegment, Glyph.bare] at hmem
  have hline := ofLine?_segment hs hstar (pieces_escapedSegment name) root false
  rw [toText_escapedSegment] at hline
  refine ⟨_, hline, rfl, rfl, rfl, fun c cs hne hcs hc => ?_⟩
  have hrel : joinWith '/' cs ≠ [] := joinWith_ne_nil hne fun d hd => (hcs d hd).1
  rw [appliesTo_path_iff hrel hc, PathPattern.accepts_false_iff]
  refine (and_iff_left fun h => Bool.noConfusion h).trans ?_
  exact matches_name_iff hname.2 false hne hcs

/-- A name of characters that have a meaning of their own, with blanks and a backslash at its
end. -/
def oddName : Text := "#!:[*\\?] !\\ ".toList

/-- Its escaped line matches it in the directory `/r/d`, and no longer name. -/
theorem appliesTo_oddName :
    oddName.IsName ∧ (∀ c ∈ oddName.getLast?, c ≠ '\n' ∧ c ≠ '\r') ∧
      ∃ r : PathRule, ofLine? "/r".toList false (escapedLine oddName) = some (.path r) ∧
        r.negated = false ∧ r.pattern.anchored = false ∧ r.pattern.directoryOnly = false ∧
        (Rule.path r).appliesTo ⟨"/r/d/".toList ++ oddName, false, none⟩ = true ∧
        (Rule.path r).appliesTo ⟨"/r/d/x".toList ++ oddName, false, none⟩ = false := by
  have hname : oddName.IsName := by decide +kernel
  have hlast : ∀ c ∈ oddName.getLast?, c ≠ '\n' ∧ c ≠ '\r' := by
    have hblank : oddName.getLast? = some ' ' := by decide +kernel
    rw [hblank]
    rintro _ ⟨⟩
    decide
  obtain ⟨r, hr, hnegated, hanchored, hdirectory, happlies⟩ :=
    ofLine?_escaped hname hlast "/r".toList
  refine ⟨hname, hlast, r, hr, hnegated, hanchored, hdirectory, ?_, ?_⟩
  · exact (happlies _ ["d".toList, oddName] (by simp) (by decide +kernel) rfl).mpr rfl
  · rw [← Bool.not_eq_true,
      happlies _ ["d".toList, 'x' :: oddName] (by simp) (by decide +kernel) rfl]
    decide +kernel

end Rule
end PathFilter
