import PathFilter.Proofs.ConfigLines
import PathFilter.Proofs.PathRules
import PathFilter.Proofs.SegmentText

/-! # What becomes of a line

Reading a line has one of three outcomes: there is no rule on it, the rule matches nothing, or it
is a rule for paths or for an interpreter.

* A line holds no rule if nothing is left of it or if it is a comment (`IsVoidLine`).
* Its rule matches nothing if it names no interpreter (`NamesNoInterpreter`) or if its body is
  malformed (`MalformedBody`): a backslash is left over at the end, nothing but slashes is there,
  or a segment other than `**` has a faulty bracket expression.
* **Every line has a rule in the other cases, none in the first and one that matches nothing in
  the second**, and no read of a segment looks behind its end (`ofLine?_outcome`).
-/

namespace PathFilter
open Pattern

/-! ## Bodies -/

namespace Pattern
variable {t : Text} {ss : List Segment} {s : Segment}

/-- A body that no pattern can be made of. -/
inductive MalformedBody (t : Text) : Prop where
  | trailingBackslash : escapedAfter t.reverse = true → MalformedBody t
  | noSegment : (∀ c ∈ t, c = '/') → MalformedBody t
  | faultyBracket {gs : List Glyph} {s : Segment} {inside : List Glyph} :
      glyphs t = .ok gs → s ∈ cutAtSlashes gs → s ≠ globstar → Meets s inside →
        Faulty true (itemsPart inside) → MalformedBody t

/-- What is joined holds the characters of its parts and separators. -/
theorem mem_joinWith {sep c : Char} {us : List Text} (h : c ∈ Text.joinWith sep us) :
    c = sep ∨ ∃ u ∈ us, c ∈ u := by
  induction us with
  | nil => cases h
  | cons u us ih =>
    by_cases hus : us = []
    · subst hus
      exact .inr ⟨u, List.mem_cons_self, h⟩
    · rw [Text.joinWith_cons sep u hus] at h
      rcases List.mem_append.mp h with h | h
      · exact .inr ⟨u, List.mem_cons_self, h⟩
      · rcases List.mem_cons.mp h with h | h
        · exact .inl h
        · exact (ih h).imp_right fun ⟨v, hv, hc⟩ => ⟨v, List.mem_cons_of_mem u hv, hc⟩

/-- A body without segments consists of slashes. -/
theorem segments_eq_ok_nil_iff : segments t = .ok [] ↔ ∀ c ∈ t, c = '/' := by
  constructor
  · intro h
    obtain ⟨gs, hgs, hempty⟩ := map_eq_ok_iff.mp h
    have hcut : ∀ u ∈ (cutAtSlashes gs).map Segment.toText, u = [] := by
      intro u hu
      obtain ⟨s, hs, rfl⟩ := List.mem_map.mp hu
      obtain rfl : s = [] := by simpa using List.filter_eq_nil_iff.mp hempty s hs
      rfl
    rw [← toText_of_glyphs hgs, ← joinWith_cutAtSlashes]
    intro c hc
    rcases mem_joinWith hc with rfl | ⟨u, hu, hc⟩
    · rfl
    · rw [hcut u hu] at hc
      cases hc
  · intro h
    have hgs : glyphs t = .ok (t.map .bare) := by
      induction t with
      | nil => rfl
      | cons c t ih =>
        obtain rfl := h c List.mem_cons_self
        rw [glyphs, ih fun c hc => h c (List.mem_cons_of_mem _ hc)]
        · rfl
        · simp
        · simp
    refine map_eq_ok_iff.mpr ⟨_, hgs, List.filter_eq_nil_iff.mpr fun s hs => ?_⟩
    cases s with
    | nil => simp
    | cons g s =>
      obtain ⟨hmem, hne⟩ := mem_of_mem_cutAtSlashes hs List.mem_cons_self
      obtain ⟨c, hc, rfl⟩ := List.mem_map.mp hmem
      exact absurd (congrArg Glyph.bare (h c hc)) hne

/-- A segment makes no step exactly if it has a faulty bracket expression. -/
theorem exists_ofSegment_eq_error_iff :
    (∃ e, Step.ofSegment s = .error e) ↔
      s ≠ globstar ∧ ∃ inside, Meets s inside ∧ Faulty true (itemsPart inside) := by
  rw [Step.ofSegment]
  split
  · rename_i hs
    refine iff_of_false ?_ fun h => h.1 hs
    rintro ⟨e, he⟩
    cases he
  · rename_i hs
    rw [exists_map_eq_error_iff, exists_pieces_eq_error_iff, and_iff_right hs]

theorem exists_mapM_readLone_eq_error_iff :
    (∃ e, (readLone ss).mapM Step.ofSegment = .error e) ↔
      ∃ s ∈ ss, ∃ e, Step.ofSegment s = .error e := by
  rw [exists_mapM_eq_error_iff, readLone]
  split
  · rename_i hss
    subst hss
    refine iff_of_false ?_ ?_
    · rintro ⟨s, hs, e, he⟩
      rw [List.mem_singleton.mp hs] at he
      cases he
    · rintro ⟨s, hs, e, he⟩
      rw [List.mem_singleton.mp hs] at he
      cases he
  · exact Iff.rfl

/-- **No pattern can be made of a body exactly if it is malformed.** -/
theorem exists_ofBody_eq_error_iff (body : PathBody) :
    (∃ e, PathPattern.ofBody body = .error e) ↔ MalformedBody body.text := by
  rw [PathPattern.ofBody]
  cases hgs : glyphs body.text with
  | error e =>
    have hesc : escapedAfter body.text.reverse = true := by
      by_contra h
      obtain ⟨gs, hgs'⟩ := (exists_glyphs_eq_ok_iff body.text).mpr (by simpa using h)
      cases hgs.symm.trans hgs'
    refine iff_of_true ⟨e, ?_⟩ (.trailingBackslash hesc)
    rw [segments, hgs]
    rfl
  | ok gs =>
    have hesc := (exists_glyphs_eq_ok_iff body.text).mp ⟨gs, hgs⟩
    have hsegments : segments body.text = .ok ((cutAtSlashes gs).filter (· ≠ [])) := by
      rw [segments, hgs]
      rfl
    rw [hsegments]
    cases hss : (cutAtSlashes gs).filter (· ≠ []) with
    | nil =>
      rw [hss] at hsegments
      exact iff_of_true ⟨.emptyPattern, rfl⟩ (.noSegment (segments_eq_ok_nil_iff.mp hsegments))
    | cons s ss =>
      have hsteps : (∃ e, ((readLone (s :: ss)).mapM Step.ofSegment >>= fun steps =>
          .ok ({ steps, anchored := body.leadingSlash || tiedBySlash (readLone (s :: ss)),
                 directoryOnly := body.directoryOnly } : PathPattern)) = .error e) ↔
          ∃ e, (readLone (s :: ss)).mapM Step.ofSegment = .error e := by
        refine exists_congr fun e => bind_eq_error_iff.trans (or_iff_left ?_)
        rintro ⟨steps, -, he⟩
        cases he
      refine hsteps.trans (exists_mapM_readLone_eq_error_iff.trans ?_)
      rw [← hss]
      constructor
      · rintro ⟨s, hs, herror⟩
        obtain ⟨hstar, inside, hmeets, hfaulty⟩ := exists_ofSegment_eq_error_iff.mp herror
        exact .faultyBracket hgs (List.mem_of_mem_filter hs) hstar hmeets hfaulty
      · intro h
        cases h with
        | trailingBackslash h => rw [h] at hesc; cases hesc
        | noSegment h =>
          have hnil := Except.ok.inj (hsegments.symm.trans (segments_eq_ok_nil_iff.mpr h))
          cases hss.symm.trans hnil
        | @faultyBracket gs' s' inside hgs' hs' hstar hmeets hfaulty =>
          cases hgs.symm.trans hgs'
          refine ⟨s', List.mem_filter.mpr ⟨hs', ?_⟩, exists_ofSegment_eq_error_iff.mpr
            ⟨hstar, inside, hmeets, hfaulty⟩⟩
          cases hmeets <;> simp

/-! ## Lines -/

/-- A text that is blank is nothing once the blanks at its ends are gone. -/
theorem strip_eq_nil_iff : Text.strip t = [] ↔ ∀ c ∈ t, Text.isBlank c = true := by
  constructor
  · intro h c hc
    obtain ⟨lead, blanks, hlead, hblanks, heq⟩ := Text.exists_append_strip_append t
    rw [h, List.nil_append] at heq
    rw [heq] at hc
    exact (List.mem_append.mp hc).elim (hlead c) (hblanks c)
  · intro h
    have hdrop : t.dropWhile Text.isBlank = [] := List.dropWhile_eq_nil_iff.mpr h
    rw [Text.strip, Text.trim, hdrop]
    rfl

/-- How the name of an interpreter is introduced. -/
def interpreterMark : Text := "#!:".toList

/-- A line that is read as nothing: it is empty, or a comment. -/
def IsVoidLine (line : Text) : Prop :=
  stripLineEnd line = [] ∨
    (stripLineEnd line).head? = some '#' ∧ ¬ interpreterMark <+: stripLineEnd line

/-- A line that asks for the files of an interpreter, and what it gives as the name of that. -/
def AsksForInterpreter (line : Text) (negated : Bool) (name : Text) : Prop :=
  stripLineEnd line = (if negated then ['!'] else []) ++ interpreterMark ++ name

/-- A line that asks for an interpreter and names none. -/
def NamesNoInterpreter (line : Text) : Prop :=
  ∃ negated name, AsksForInterpreter line negated name ∧ ∀ c ∈ name, Text.isBlank c = true

/-- A line whose body is malformed. -/
def HasMalformedBody (line : Text) : Prop :=
  ∃ negated body, Line.read line = some (.path negated body) ∧ MalformedBody body.text

theorem Line.read_eq_none_iff (line : Text) : Line.read line = none ↔ IsVoidLine line := by
  rw [Line.read, IsVoidLine]
  generalize stripLineEnd line = t
  split
  · exact iff_of_true rfl (.inl rfl)
  · rename_i name
    refine iff_of_false nofun ?_
    rintro (h | ⟨-, h⟩)
    · cases h
    · exact h ⟨name, rfl⟩
  · rename_i rest hmark
    refine iff_of_true rfl (.inr ⟨rfl, ?_⟩)
    rintro ⟨name, h⟩
    cases h
    exact hmark name rfl
  · exact iff_of_false nofun (by simp)
  · exact iff_of_false nofun (by simp)
  · rename_i hnil _ hcomment _ _
    refine iff_of_false nofun ?_
    rintro (h | ⟨h, -⟩)
    · exact hnil h
    · obtain ⟨rest, rfl⟩ := List.head?_eq_some_iff.mp h
      exact hcomment rest rfl

theorem Line.read_eq_interpreter_iff {line name : Text} {negated : Bool} :
    Line.read line = some (.interpreter negated name) ↔
      ∃ written, AsksForInterpreter line negated written ∧ name = Text.strip written := by
  rw [Line.read]
  simp only [AsksForInterpreter]
  generalize stripLineEnd line = t
  constructor
  · intro h
    split at h
    · cases h
    · rename_i written
      cases h
      exact ⟨written, rfl, rfl⟩
    · cases h
    · rename_i written
      cases h
      exact ⟨written, rfl, rfl⟩
    · cases h
    · cases h
  · rintro ⟨written, rfl, rfl⟩
    cases negated <;> rfl

end Pattern

namespace Rule
variable {root line : Text} {allow negated : Bool}

theorem ofLine?_of_interpreter {name : Text}
    (h : Line.read line = some (.interpreter negated name)) :
    ofLine? root allow line = if name.isEmpty then some (.unmatchable line negated) else
      some (.interpreter { line, root := Path.slashed root, negated, interpreter := name }) := by
  rw [ofLine?, h, Option.map_some, ofPattern]
  split <;> rfl

/-- The rule of a line matches nothing where the line names no interpreter or its body is
malformed. -/
theorem exists_ofLine?_eq_unmatchable_iff :
    (∃ negated, ofLine? root allow line = some (.unmatchable line negated)) ↔
      NamesNoInterpreter line ∨ HasMalformedBody line := by
  constructor
  · rintro ⟨negated, h⟩
    obtain ⟨l, hread, h⟩ := Option.map_eq_some_iff.mp h
    cases l with
    | interpreter negated' name =>
      obtain ⟨written, hasks, rfl⟩ := Line.read_eq_interpreter_iff.mp hread
      rw [ofPattern] at h
      split at h
      · rename_i hempty
        exact .inl ⟨negated', written, hasks, strip_eq_nil_iff.mp (List.isEmpty_iff.mp hempty)⟩
      · cases h
    | path negated' body =>
      rw [ofPattern] at h
      cases hbody : PathPattern.ofBody body with
      | error e =>
        exact .inr ⟨negated', body, hread, (exists_ofBody_eq_error_iff body).mp ⟨e, hbody⟩⟩
      | ok pattern => rw [hbody] at h; cases h
  · rintro (⟨negated, written, hasks, hblank⟩ | ⟨negated, body, hread, hbody⟩)
    · refine ⟨negated, ?_⟩
      rw [ofLine?_of_interpreter (Line.read_eq_interpreter_iff.mpr ⟨written, hasks, rfl⟩),
        strip_eq_nil_iff.mpr hblank]
      rfl
    · obtain ⟨e, he⟩ := (exists_ofBody_eq_error_iff body).mpr hbody
      exact ⟨negated, by rw [ofLine?, hread, Option.map_some, ofPattern, he]⟩

/-- **What becomes of a line.**  It has no rule exactly if it is empty or a comment; its rule
matches nothing exactly if it names no interpreter or has a malformed body; and otherwise it has a
rule for an interpreter or for paths.  Reading the segments of its body by position ends without a
look behind their end, and finds the pieces that the rule is made of. -/
theorem ofLine?_outcome (root : Text) (allow : Bool) (line : Text) :
    (ofLine? root allow line = none ↔ IsVoidLine line) ∧
    ((∃ negated, ofLine? root allow line = some (.unmatchable line negated)) ↔
      NamesNoInterpreter line ∨ HasMalformedBody line) ∧
    (¬ IsVoidLine line → ¬ NamesNoInterpreter line → ¬ HasMalformedBody line →
      (∃ r, ofLine? root allow line = some (.interpreter r)) ∨
        ∃ r, ofLine? root allow line = some (.path r)) ∧
    ∀ negated body ss, Line.read line = some (.path negated body) → segments body.text = .ok ss →
      ∀ s ∈ ss, readPieces (Segment.toText s) ≠ .error .outOfRange ∧
        readPieces (Segment.toText s) = (pieces s).mapError fun _ => .malformed := by
  refine ⟨?_, exists_ofLine?_eq_unmatchable_iff, ?_, ?_⟩
  · rw [ofLine?, Option.map_eq_none_iff, Line.read_eq_none_iff]
  · intro hvoid hname hbody
    cases hread : Line.read line with
    | none => exact absurd ((Line.read_eq_none_iff line).mp hread) hvoid
    | some l =>
      cases l with
      | interpreter negated name =>
        obtain ⟨written, hasks, rfl⟩ := Line.read_eq_interpreter_iff.mp hread
        have hne : ¬ (Text.strip written).isEmpty = true := fun hempty =>
          hname ⟨negated, written, hasks, strip_eq_nil_iff.mp (List.isEmpty_iff.mp hempty)⟩
        exact .inl ⟨_, by rw [ofLine?_of_interpreter hread, if_neg hne]⟩
      | path negated body =>
        cases hpattern : PathPattern.ofBody body with
        | error e =>
          exact absurd ⟨negated, body, hread, (exists_ofBody_eq_error_iff body).mp ⟨e, hpattern⟩⟩
            hbody
        | ok pattern =>
          exact .inr ⟨_, ofLine?_eq_path_iff.mpr ⟨negated, body, pattern, hread, hpattern, rfl⟩⟩
  · intro negated body ss _ hss s hs
    have hpaired := paired_of_segments hss hs
    exact ⟨readPieces_ne_outOfRange s hpaired, readPieces_toText s hpaired⟩

end Rule
end PathFilter
