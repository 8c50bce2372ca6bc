import PathFilter.Proofs.EscapedNames

/-! # Escapes at the ends of a pattern

Before the body of a pattern is cut into segments, blanks are taken from the end of its line, then a
mark of negation from its beginning, and slashes from both of its ends.  Whether a blank or a slash
is escaped is judged backwards from where it stands, and the body is read forwards, so each cut has
to fall between two pairs.

* **A look back finds a character to be escaped exactly if it is the second of a pair** when the
  backslashes are paired from the left (`escapedAfter_reverse_iff`).
* What is left of a line without its blanks has no backslash without a partner if the line has none
  (`exists_glyphs_stripLineEnd`).
* Nor has a body, with one exception: **of several slashes at the end of a pattern only the last is
  looked at, and all are dropped**.  If the first of them is escaped, its backslash is left behind
  without a partner, and the body has no segments (`PathBody.exists_segments_ofText_iff`,
  `Line.read_escaped_slash`).

`Line.escapes_kept` puts this together for a line.
-/

namespace PathFilter.Pattern
variable {c : Char} {s t before after line : Text}

/-! ## Looking back and pairing from the left -/

/-- What escapes is a backslash that is not escaped itself. -/
theorem exists_of_escapedAfter {r : Text} (h : escapedAfter r = true) :
    ∃ u, r = '\\' :: u ∧ escapedAfter u = false := by
  cases r with
  | nil => cases h
  | cons c u =>
    by_cases hc : c = '\\'
    · subst hc
      rw [escapedAfter_cons_backslash, Bool.not_eq_true'] at h
      exact ⟨u, rfl, h⟩
    · rw [escapedAfter_cons hc] at h
      cases h

/-- Glyphs that are read from the beginning of a text stand before those of the rest. -/
theorem glyphs_append {gs : List Glyph} (h : glyphs s = .ok gs) (t : Text) :
    glyphs (s ++ t) = (glyphs t).map (gs ++ ·) := by
  fun_induction glyphs s generalizing gs with
  | case1 =>
    cases h
    rw [List.nil_append]
    cases glyphs t <;> rfl
  | case2 => cases h
  | case3 c rest ih =>
    obtain ⟨gs, hgs, rfl⟩ := map_eq_ok_iff.mp h
    rw [List.cons_append, List.cons_append, glyphs, ih hgs]
    cases glyphs t <;> rfl
  | case4 c rest hlast hpair ih =>
    have hc := ne_backslash_of_no_pair hlast hpair
    obtain ⟨gs, hgs, rfl⟩ := map_eq_ok_iff.mp h
    rw [List.cons_append, glyphs, ih hgs]
    · cases glyphs t <;> rfl
    · exact fun hnil => absurd hnil hc
    · exact fun _ _ hcons => absurd hcons hc

/-- **A look back finds a character to be escaped exactly if it is the second of a pair.** -/
theorem escapedAfter_reverse_iff {gs : List Glyph} (h : glyphs (before ++ c :: after) = .ok gs) :
    escapedAfter before.reverse = true ↔
      ∃ gs₁ gs₂, gs = gs₁ ++ ⟨c, true⟩ :: gs₂ ∧ before = Segment.toText gs₁ ++ ['\\'] := by
  constructor
  · intro hescaped
    obtain ⟨r, hr, hpaired⟩ := exists_of_escapedAfter hescaped
    obtain rfl : before = r.reverse ++ ['\\'] := by
      rw [← List.reverse_cons, ← hr, List.reverse_reverse]
    obtain ⟨gs₁, hgs₁⟩ := (exists_glyphs_eq_ok_iff r.reverse).mpr (by rwa [List.reverse_reverse])
    rw [List.append_assoc, glyphs_append hgs₁] at h
    obtain ⟨gs', hgs', rfl⟩ := map_eq_ok_iff.mp h
    obtain ⟨gs₂, -, rfl⟩ := map_eq_ok_iff.mp hgs'
    exact ⟨gs₁, gs₂, rfl, by rw [toText_of_glyphs hgs₁]⟩
  · rintro ⟨gs₁, gs₂, rfl, rfl⟩
    have hpaired : Paired gs₁ := fun g hg => ne_backslash_of_glyphs h (List.mem_append_left _ hg)
    have hbefore := (exists_glyphs_eq_ok_iff _).mp ⟨gs₁, glyphs_toText hpaired⟩
    rw [List.reverse_concat, escapedAfter_cons_backslash, hbefore, Bool.not_false]

/-- A text in which both ways see the same escapes: read from the left, no backslash is without a
partner, and a look back finds a character to be escaped exactly if it is the second of a pair. -/
def PairsAlike (t : Text) : Prop :=
  ∃ gs, glyphs t = .ok gs ∧ ∀ before c after, t = before ++ c :: after →
    (escapedAfter before.reverse = true ↔
      ∃ gs₁ gs₂, gs = gs₁ ++ ⟨c, true⟩ :: gs₂ ∧ before = Segment.toText gs₁ ++ ['\\'])

theorem pairsAlike_of_glyphs (h : ∃ gs, glyphs t = .ok gs) : PairsAlike t := by
  obtain ⟨gs, hgs⟩ := h
  exact ⟨gs, hgs, fun before c after ht => escapedAfter_reverse_iff (ht ▸ hgs)⟩

/-! ## The end of a line -/

theorem escapedAfter_dropBlanksReversed {r : Text} (h : escapedAfter r = false) :
    escapedAfter (dropBlanksReversed r) = false := by
  induction r with
  | nil => exact h
  | cons c before ih =>
    rw [dropBlanksReversed]
    split
    · rename_i hblank
      rw [Bool.and_eq_true, Bool.not_eq_true'] at hblank
      exact ih hblank.2
    · exact h

/-- What is left of a line has no backslash without a partner if the line has none. -/
theorem exists_glyphs_stripLineEnd (hreturn : '\r' ∉ line) (hfeed : '\n' ∉ line)
    (hline : ∃ gs, glyphs line = .ok gs) : ∃ gs, glyphs (stripLineEnd line) = .ok gs := by
  rw [exists_glyphs_eq_ok_iff] at hline ⊢
  rw [stripLineEnd_of_getLast? (fun h => hfeed (List.mem_of_getLast? h))
    (fun h => hreturn (List.mem_of_getLast? h)), List.reverse_reverse]
  exact escapedAfter_dropBlanksReversed hline

/-! ## The slashes of a pattern -/

/-- A pattern that ends in an escaped slash and more slashes behind it. -/
def EndsInEscapedSlash (t : Text) : Prop :=
  ∃ s n, (∃ gs, glyphs s = .ok gs) ∧ t = s ++ '\\' :: '/' :: List.replicate (n + 1) '/'

/-- Read backwards, such a pattern begins with slashes and the backslash that escapes the first of
them. -/
theorem endsInEscapedSlash_iff_reverse : EndsInEscapedSlash t ↔
    ∃ u n, escapedAfter u = false ∧ t.reverse = List.replicate (n + 2) '/' ++ '\\' :: u := by
  have hreverse : ∀ (s : Text) (n : Nat), (s ++ '\\' :: '/' :: List.replicate (n + 1) '/').reverse =
      List.replicate (n + 2) '/' ++ '\\' :: s.reverse := by
    intro s n
    rw [← List.replicate_succ, List.reverse_append, List.reverse_cons, List.reverse_replicate,
      List.append_assoc, List.singleton_append]
  constructor
  · rintro ⟨s, n, hs, rfl⟩
    exact ⟨s.reverse, n, (exists_glyphs_eq_ok_iff s).mp hs, hreverse s n⟩
  · rintro ⟨u, n, hu, ht⟩
    refine ⟨u.reverse, n, (exists_glyphs_eq_ok_iff _).mpr (by rwa [List.reverse_reverse]), ?_⟩
    rw [← List.reverse_inj, ht, hreverse, List.reverse_reverse]

theorem endsInBareSlash_iff :
    endsInBareSlash t = true ↔ ∃ u, t.reverse = '/' :: u ∧ escapedAfter u = false := by
  rw [endsInBareSlash]
  cases t.reverse with
  | nil => simp
  | cons c u => simp [and_comm]

/-- A pattern ends so if its last slash is not escaped, but what stands before all its last slashes
escapes the next one. -/
theorem endsInEscapedSlash_iff : EndsInEscapedSlash t ↔
    endsInBareSlash t = true ∧ escapedAfter (t.reverse.dropWhile (· = '/')) = true := by
  rw [endsInEscapedSlash_iff_reverse, endsInBareSlash_iff]
  constructor
  · rintro ⟨u, n, hu, ht⟩
    refine ⟨⟨_, ht, escapedAfter_cons (by decide) _⟩, ?_⟩
    rw [ht, List.dropWhile_append_of_pos (fun c hc => by simp [List.eq_of_mem_replicate hc]),
      List.dropWhile_cons_of_neg (by decide), escapedAfter_cons_backslash, hu, Bool.not_false]
  · rintro ⟨⟨before, ht, hbare⟩, hescaped⟩
    obtain ⟨u, hu, hpaired⟩ := exists_of_escapedAfter hescaped
    rw [ht, List.dropWhile_cons_of_pos (by decide)] at hu
    have hslashes : before.takeWhile (· = '/') =
        List.replicate (before.takeWhile (· = '/')).length '/' :=
      List.eq_replicate_of_mem fun c hc => by simpa using List.mem_takeWhile_imp hc
    have hbefore := List.takeWhile_append_dropWhile (p := (· = '/')) (l := before)
    rw [hu, hslashes] at hbefore
    generalize (before.takeWhile (· = '/')).length = m at hbefore
    subst hbefore
    cases m with
    | zero =>
      -- a backslash right before the last slash would escape it
      rw [List.replicate_zero, List.nil_append, escapedAfter_cons_backslash, hpaired] at hbare
      cases hbare
    | succ n => exact ⟨u, n, hpaired, ht⟩

instance (t : Text) : Decidable (EndsInEscapedSlash t) := decidable_of_iff' _ endsInEscapedSlash_iff

/-- Slashes at the beginning have no part in how backslashes are paired. -/
theorem exists_glyphs_dropWhile_iff (t : Text) :
    (∃ gs, glyphs (t.dropWhile (· = '/')) = .ok gs) ↔ ∃ gs, glyphs t = .ok gs := by
  have hhead : (t.takeWhile (· = '/')).reverse.head? ≠ some '\\' := by
    intro h
    have hmem := List.mem_reverse.mp (List.mem_of_head? h)
    exact absurd (List.mem_takeWhile_imp hmem) (by decide)
  conv_rhs => rw [← List.takeWhile_append_dropWhile (p := (· = '/')) (l := t)]
  rw [exists_glyphs_eq_ok_iff, exists_glyphs_eq_ok_iff, List.reverse_append,
    escapedAfter_append hhead]

/-- **The body of a pattern has segments exactly if the slashes that are dropped at its end do not
begin with an escaped one.** -/
theorem PathBody.exists_segments_ofText_iff (ht : ∃ gs, glyphs t = .ok gs) :
    (∃ ss, segments (PathBody.ofText t).text = .ok ss) ↔ ¬ EndsInEscapedSlash t := by
  have hends : (∃ gs, glyphs (if endsInBareSlash t then Text.dropTrailing (· = '/') t else t) =
      .ok gs) ↔ ¬ EndsInEscapedSlash t := by
    rw [endsInEscapedSlash_iff]
    split
    · rename_i hslash
      rw [exists_glyphs_eq_ok_iff, Text.dropTrailing, List.reverse_reverse, ← Bool.not_eq_true]
      exact not_congr (and_iff_right hslash).symm
    · rename_i hslash
      exact iff_of_true ht fun h => hslash h.1
  have hbegins : ∀ u : Text,
      (∃ gs, glyphs (if u.head? == some '/' then u.dropWhile (· = '/') else u) = .ok gs) ↔
        ∃ gs, glyphs u = .ok gs := by
    intro u
    split
    · exact exists_glyphs_dropWhile_iff u
    · rfl
  rw [segments, exists_map_eq_ok_iff, ← hends]
  exact hbegins _

/-! ## Lines -/

/-- The pattern on a line is what is left of it, without the mark of negation. -/
theorem Line.exists_of_read_eq_path {negated : Bool} {body : PathBody}
    (h : Line.read line = some (.path negated body)) :
    ∃ pattern, stripLineEnd line = (if negated then '!' :: pattern else pattern) ∧
      body = .ofText pattern := by
  rw [Line.read] at h
  split at h
  · cases h
  · cases h
  · cases h
  · cases h
  · rename_i hline
    cases h
    exact ⟨_, hline, rfl⟩
  · cases h
    exact ⟨_, rfl, rfl⟩

/-- **What becomes of the escapes on a line**, if it has no line end and no backslash without a
partner.

Wherever it is looked at, a character of the line is taken to be escaped exactly if it is the second
of a pair.  The same holds of the path pattern on the line, without the blanks at its end and the
mark of negation: no backslash has lost its partner.  The body of this pattern has segments exactly
if the slashes at the end of the pattern do not begin with an escaped one. -/
theorem Line.escapes_kept (hreturn : '\r' ∉ line) (hfeed : '\n' ∉ line)
    (hline : ∃ gs, glyphs line = .ok gs) :
    PairsAlike line ∧ ∀ negated body, Line.read line = some (.path negated body) →
      ∃ pattern, stripLineEnd line = (if negated then '!' :: pattern else pattern) ∧
        PairsAlike pattern ∧ body = .ofText pattern ∧
        ((∃ ss, segments body.text = .ok ss) ↔ ¬ EndsInEscapedSlash pattern) := by
  refine ⟨pairsAlike_of_glyphs hline, fun negated body hread => ?_⟩
  obtain ⟨pattern, hleft, rfl⟩ := Line.exists_of_read_eq_path hread
  have hpattern : ∃ gs, glyphs pattern = .ok gs := by
    have hstrip := exists_glyphs_stripLineEnd hreturn hfeed hline
    rw [hleft] at hstrip
    cases negated with
    | false => exact hstrip
    | true => exact exists_map_eq_ok_iff.mp hstrip
  exact ⟨pattern, hleft, pairsAlike_of_glyphs hpattern, rfl,
    PathBody.exists_segments_ofText_iff hpattern⟩

/-- Of the slashes at the end of this pattern the last is not escaped, nor is the one before it. -/
theorem Line.escapes_kept_of_pairs :
    let line := "!//a\\/b\\\\//\t".toList
    PairsAlike line ∧ Line.read line = some (.path true ⟨"a\\/b\\\\".toList, true, true⟩) ∧
      ∃ ss, segments "a\\/b\\\\".toList = .ok ss := by
  intro line
  have hread : Line.read line = some (.path true ⟨"a\\/b\\\\".toList, true, true⟩) := by
    decide +kernel
  obtain ⟨hpairs, hpath⟩ := Line.escapes_kept (show '\r' ∉ line by decide)
    (by decide) ⟨_, rfl⟩
  obtain ⟨pattern, hleft, -, -, hsegments⟩ := hpath _ _ hread
  have hpattern : '!' :: pattern = "!//a\\/b\\\\//".toList := hleft.symm.trans (by decide +kernel)
  cases hpattern
  exact ⟨hpairs, hread, hsegments.mpr (by decide +kernel)⟩

/-- **The backslash of an escaped slash can lose its partner**: both slashes are dropped at the end
of this line, though only the last one is not escaped. -/
theorem Line.read_escaped_slash :
    let line := "a\\//".toList
    '\r' ∉ line ∧ '\n' ∉ line ∧
      glyphs line = .ok [.bare 'a', ⟨'/', true⟩, .bare '/'] ∧
      Line.read line = some (.path false ⟨"a\\".toList, false, true⟩) ∧
      segments "a\\".toList = .error .trailingBackslash :=
  ⟨by decide, by decide, rfl, by decide +kernel, rfl⟩

end PathFilter.Pattern
