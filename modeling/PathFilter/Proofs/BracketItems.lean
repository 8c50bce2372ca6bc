import PathFilter.Proofs.EscapedNames

/-! # Bracket expressions and their items

A bracket expression can be written item by item: a character behind a backslash, two such
characters with a dash between them, a name in `[:` and `:]`.  Written so, no item takes part of
its neighbour for its own, and none ends the expression (`takesItem_glyphs`).

* **The items are read back as they were written**, behind a mark that turns the expression round
  (`read_bracketGlyphs`).
* **The line of a bracket expression matches the names of one character that is among its items**,
  or of one that is not if there is a mark; a slash is matched in neither case
  (`ofLine?_bracket`).

What it is to be among the items is said here without the ranges that a name is looked up in
(`ClassName.Has`).
-/

namespace PathFilter.Pattern
variable {first : Bool} {gs rest : List Glyph} {i : ClassItem} {items : List ClassItem} {c : Char}

/-! ## What is among the items -/

/-- Whether a character is in a named class, which are those of ASCII. -/
def ClassName.Has : ClassName → Char → Prop
  | .alnum, c => c.isAlphanum
  | .alpha, c => c.isAlpha
  | .blank, c => c = ' ' ∨ c = '\t'
  | .cntrl, c => c.toNat < 32 ∨ c.toNat = 127
  | .digit, c => c.isDigit
  | .graph, c => 32 < c.toNat ∧ c.toNat < 127
  | .lower, c => c.isLower
  | .print, c => 32 ≤ c.toNat ∧ c.toNat < 127
  | .punct, c => 32 < c.toNat ∧ c.toNat < 127 ∧ ¬ c.isAlphanum
  | .space, c => c = ' ' ∨ 9 ≤ c.toNat ∧ c.toNat ≤ 13
  | .upper, c => c.isUpper
  | .xdigit, c => c.isDigit ∨ 'a' ≤ c ∧ c ≤ 'f' ∨ 'A' ≤ c ∧ c ≤ 'F'

/-- Whether a character is among those of an item. -/
def ClassItem.Has : ClassItem → Char → Prop
  | .single a, c => c = a
  | .range low high, c => low ≤ c ∧ c ≤ high
  | .named k, c => k.Has c

/-- Whether the ends of an item, if it is a range, are in their order. -/
def ClassItem.IsOrdered : ClassItem → Prop
  | .range low high => low ≤ high
  | .single _ | .named _ => True

instance : DecidablePred ClassItem.IsOrdered
  | .range low high => inferInstanceAs (Decidable (low ≤ high))
  | .single _ | .named _ => .isTrue trivial

theorem isUpper_iff : c.isUpper = true ↔ 'A' ≤ c ∧ c ≤ 'Z' := decide_eq_true_iff

theorem isLower_iff : c.isLower = true ↔ 'a' ≤ c ∧ c ≤ 'z' :=
  Bool.and_eq_true_iff.trans (and_congr decide_eq_true_iff decide_eq_true_iff)

theorem isAlpha_iff : c.isAlpha = true ↔ c.isUpper = true ∨ c.isLower = true :=
  Bool.or_eq_true_iff

theorem isDigit_iff : c.isDigit = true ↔ '0' ≤ c ∧ c ≤ '9' :=
  Bool.and_eq_true_iff.trans (and_congr decide_eq_true_iff decide_eq_true_iff)

theorem isAlphanum_iff : c.isAlphanum = true ↔ c.isAlpha = true ∨ c.isDigit = true :=
  Bool.or_eq_true_iff

/-- The ranges of a name hold what the name says. -/
theorem ClassName.any_ranges_iff (k : ClassName) (c : Char) :
    (k.ranges.any fun (low, high) => low ≤ c && c ≤ high) = true ↔ k.Has c := by
  -- both sides are bounds of the code point
  cases k <;>
    simp [ranges, Has, isAlphanum_iff, isAlpha_iff, isUpper_iff, isLower_iff, isDigit_iff,
      Char.le_def, UInt32.le_iff_toNat_le, ← Char.toNat_inj] <;>
    omega

theorem ClassItem.lists_iff : i.lists c = true ↔ i.Has c := by
  cases i with
  | single a => exact beq_iff_eq
  | range low high => simp [lists, Has]
  | named k => exact k.any_ranges_iff c

instance : Decidable (i.Has c) := decidable_of_iff _ ClassItem.lists_iff

theorem CharClass.admits_iff {negated : Bool} :
    CharClass.admits ⟨negated, items⟩ c = true ↔
      c ≠ '/' ∧ ((∃ i ∈ items, i.Has c) ↔ negated = false) := by
  have hany : items.any (·.lists c) = true ↔ ∃ i ∈ items, i.Has c := by
    simp only [List.any_eq_true, ClassItem.lists_iff]
  rw [admits, Bool.and_eq_true, decide_eq_true_iff, ← hany]
  cases items.any (·.lists c) <;> cases negated <;> simp

/-! ## How items are written -/

/-- The name of a class as it is written. -/
def ClassName.text : ClassName → Text
  | .alnum => "alnum".toList
  | .alpha => "alpha".toList
  | .blank => "blank".toList
  | .cntrl => "cntrl".toList
  | .digit => "digit".toList
  | .graph => "graph".toList
  | .lower => "lower".toList
  | .print => "print".toList
  | .punct => "punct".toList
  | .space => "space".toList
  | .upper => "upper".toList
  | .xdigit => "xdigit".toList

/-- An item with a backslash before each character that stands for itself. -/
def ClassItem.toText : ClassItem → Text
  | .single a => ['\\', a]
  | .range low high => ['\\', low, '-', '\\', high]
  | .named k => '[' :: ':' :: (k.text ++ [':', ']'])

/-- The line of a bracket expression, with a mark that turns it round or without one. -/
def bracketLine (mark : Option Char) (items : List ClassItem) : Text :=
  '[' :: (mark.toList ++ (items.flatMap ClassItem.toText ++ [']']))

/-- The glyphs of an item that is written so. -/
def ClassItem.glyphs : ClassItem → List Glyph
  | .single a => [⟨a, true⟩]
  | .range low high => [⟨low, true⟩, .bare '-', ⟨high, true⟩]
  | .named k => .bare '[' :: .bare ':' :: (k.text.map .bare ++ [.bare ':', .bare ']'])

/-- What stands between the brackets, with the closing one. -/
def bracketGlyphs (mark : Option Char) (items : List ClassItem) : List Glyph :=
  mark.toList.map .bare ++ (items.flatMap ClassItem.glyphs ++ [.bare ']'])

/-- The segment of a bracket expression. -/
def bracketSegment (mark : Option Char) (items : List ClassItem) : Segment :=
  .bare '[' :: bracketGlyphs mark items

theorem ClassName.lookup_text (k : ClassName) : written.lookup k.text = some k := by
  cases k <;> rfl

theorem ClassItem.toText_glyphs (i : ClassItem) : Segment.toText i.glyphs = i.toText := by
  cases i with
  | single a => rfl
  | range low high => rfl
  | named k =>
    show '[' :: ':' :: Segment.toText (k.text.map .bare ++ [.bare ':', .bare ']']) = _
    rw [Segment.toText_append, Segment.toText_map_bare]
    rfl

theorem toText_bracketSegment (mark : Option Char) (items : List ClassItem) :
    (bracketSegment mark items).toText = bracketLine mark items := by
  have hitems : Segment.toText (items.flatMap ClassItem.glyphs) =
      items.flatMap ClassItem.toText := by
    rw [Segment.toText, List.flatMap_assoc]
    exact congrArg items.flatMap (funext ClassItem.toText_glyphs)
  show '[' :: Segment.toText (bracketGlyphs mark items) = _
  rw [bracketGlyphs, Segment.toText_append, Segment.toText_map_bare, Segment.toText_append, hitems]
  rfl

/-! ## Items are read back -/

/-- An item begins with an escaped character or an opening bracket, so it is no mark, and what
stands before it goes on to no range. -/
theorem ClassItem.exists_glyphs_eq_cons (i : ClassItem) :
    ∃ g gs, i.glyphs = g :: gs ∧ (g.escaped = true ∨ g = .bare '[') := by
  cases i with
  | single a => exact ⟨_, _, rfl, .inl rfl⟩
  | range low high => exact ⟨_, _, rfl, .inl rfl⟩
  | named k => exact ⟨_, _, rfl, .inr rfl⟩

/-- No item goes on where another one or the closing bracket follows. -/
theorem not_continuesRange_items (items : List ClassItem) (rest : List Glyph) :
    ¬ ContinuesRange (items.flatMap ClassItem.glyphs ++ .bare ']' :: rest) := by
  have hhead : ∀ {gs}, ContinuesRange gs → gs.head? = some (.bare '-') := by
    intro gs h
    match gs, h with
    | _ :: _ :: _, ⟨rfl, _⟩ => rfl
  intro h
  replace h := hhead h
  cases items with
  | nil => exact absurd h (by simp [Glyph.bare])
  | cons i items =>
    obtain ⟨g, gs, hi, hg⟩ := i.exists_glyphs_eq_cons
    rw [List.flatMap_cons, hi] at h
    obtain rfl : g = .bare '-' := Option.some_inj.mp h
    simp [Glyph.bare] at hg

/-- **An item is taken as it was written**, first or not, if what follows does not go on to a
range. -/
theorem takesItem_glyphs (hi : i.IsOrdered) (hrest : ¬ ContinuesRange rest) :
    TakesItem first (i.glyphs ++ rest) i rest := by
  cases i with
  | single a => exact .single nofun nofun hrest
  | range low high => exact .range nofun nofun hi
  | named k =>
    have htake : TakesItem first (.bare '[' :: .bare ':' ::
        (k.text.map .bare ++ .bare ':' :: .bare ']' :: rest)) (.named k) rest :=
      .named k.lookup_text
    simpa [ClassItem.glyphs] using htake

/-- Items are read up to the bracket behind them, where that does not come first. -/
theorem classItems_glyphs (hne : first = true → items ≠ []) (hitems : ∀ i ∈ items, i.IsOrdered)
    (rest : List Glyph) :
    classItems (.item first) (items.flatMap ClassItem.glyphs ++ .bare ']' :: rest) =
      .ok (items, rest) := by
  induction items generalizing first with
  | nil =>
    obtain rfl : first = false := Bool.eq_false_iff.mpr fun h => hne h rfl
    exact classItems_close rest
  | cons i items ih =>
    obtain ⟨hi, hitems⟩ := List.forall_mem_cons.mp hitems
    rw [List.flatMap_cons, List.append_assoc,
      classItems_of_takesItem (takesItem_glyphs hi (not_continuesRange_items items rest)),
      ih (fun h => absurd h Bool.false_ne_true) hitems]
    rfl

/-- A mark is set apart from the items, and without one nothing is. -/
theorem itemsPart_bracketGlyphs {mark : Option Char} (hmark : ∀ m ∈ mark, m = '!' ∨ m = '^')
    (hne : items ≠ []) :
    itemsPart (bracketGlyphs mark items) = items.flatMap ClassItem.glyphs ++ [.bare ']'] ∧
      ((bracketGlyphs mark items).head?.any fun g => g = .bare '!' || g = .bare '^') =
        mark.isSome := by
  cases mark with
  | some m =>
    have hbare : (.bare m : Glyph) = .bare '!' ∨ (.bare m : Glyph) = .bare '^' :=
      (hmark m rfl).imp (congrArg Glyph.bare) (congrArg Glyph.bare)
    exact ⟨if_pos (by simpa using hbare), by simpa [bracketGlyphs] using hbare⟩
  | none =>
    obtain ⟨i, items, rfl⟩ := List.exists_cons_of_ne_nil hne
    obtain ⟨g, gs, hi, hg⟩ := i.exists_glyphs_eq_cons
    have hbare : ¬ (g = .bare '!' ∨ g = .bare '^') := by
      rintro (rfl | rfl) <;> simp [Glyph.bare] at hg
    simp only [bracketGlyphs, Option.toList_none, List.map_nil, List.nil_append, List.flatMap_cons,
      hi, List.cons_append]
    exact ⟨if_neg (by simpa using hbare), by simpa using hbare⟩

/-- **The items are read back as they were written**, and the mark turns them round. -/
theorem read_bracketGlyphs {mark : Option Char} (hmark : ∀ m ∈ mark, m = '!' ∨ m = '^')
    (hne : items ≠ []) (hitems : ∀ i ∈ items, i.IsOrdered) :
    CharClass.read (bracketGlyphs mark items) = .ok (⟨mark.isSome, items⟩, []) := by
  obtain ⟨hpart, hmarked⟩ := itemsPart_bracketGlyphs hmark hne
  rw [CharClass.read_eq, hpart, hmarked, classItems_glyphs (fun _ => hne) hitems]
  rfl

/-! ## The segment of a bracket expression -/

theorem pieces_bracketSegment {mark : Option Char} (hmark : ∀ m ∈ mark, m = '!' ∨ m = '^')
    (hne : items ≠ []) (hitems : ∀ i ∈ items, i.IsOrdered) :
    pieces (bracketSegment mark items) = .ok [.oneOf ⟨mark.isSome, items⟩] := by
  rw [bracketSegment, pieces_bracket, read_bracketGlyphs hmark hne hitems]
  rfl

/-- No item holds a backslash or a slash that is not escaped. -/
theorem ClassItem.bare_mem_glyphs {a : Char} (h : .bare a ∈ i.glyphs) : a ≠ '\\' ∧ a ≠ '/' := by
  have htext : ∀ k : ClassName, '\\' ∉ k.text ∧ '/' ∉ k.text := by
    intro k
    cases k <;> decide
  cases i with
  | single a => simp [glyphs, Glyph.bare] at h
  | range low high =>
    obtain rfl : a = '-' := by simpa [glyphs, Glyph.bare] using h
    decide
  | named k =>
    have hcases : a = '[' ∨ a = ':' ∨ a ∈ k.text ∨ a = ']' := by
      simp only [glyphs, Glyph.bare, List.mem_cons, List.mem_append, List.mem_map, Glyph.mk.injEq,
        and_true, exists_eq_right, List.not_mem_nil, or_false] at h
      tauto
    rcases hcases with rfl | rfl | hmem | rfl
    · decide
    · decide
    · exact ⟨fun h => (htext k).1 (h ▸ hmem), fun h => (htext k).2 (h ▸ hmem)⟩
    · decide

/-- A bracket expression can be written as the whole of a line. -/
theorem standsAlone_bracketSegment {mark : Option Char} (hmark : ∀ m ∈ mark, m = '!' ∨ m = '^')
    (items : List ClassItem) : (bracketSegment mark items).StandsAlone := by
  have hbare : ∀ a, .bare a ∈ bracketSegment mark items → a ≠ '\\' ∧ a ≠ '/' := by
    intro a h
    rcases List.mem_cons.mp h with h | h
    · obtain rfl : a = '[' := congrArg Glyph.char h
      decide
    rcases List.mem_append.mp h with h | h
    · obtain ⟨m, hm, heq⟩ := List.mem_map.mp h
      obtain rfl : m = a := congrArg Glyph.char heq
      rcases hmark m (Option.mem_toList.mp hm) with rfl | rfl <;> decide
    rcases List.mem_append.mp h with h | h
    · obtain ⟨i, -, hi⟩ := List.mem_flatMap.mp h
      exact i.bare_mem_glyphs hi
    · obtain rfl : a = ']' := congrArg Glyph.char (List.mem_singleton.mp h)
      decide
  refine ⟨nofun, fun g hg => ?_, fun h => (hbare _ h).2 rfl, fun g hg => ?_, fun g hg => ?_⟩
  · rintro rfl
    exact (hbare _ hg).1 rfl
  · cases hg
    decide
  · have hlast : (bracketSegment mark items).getLast? = some (.bare ']') := by
      rw [bracketSegment, bracketGlyphs, ← List.append_assoc, ← List.cons_append,
        List.getLast?_concat]
    obtain rfl : g = .bare ']' := (Option.mem_unique hlast hg).symm
    decide

/-- A pattern of one class meets one character exactly if the class admits it. -/
theorem accepts_oneOf (k : CharClass) (allow isDir : Bool) (c : Char) :
    PathPattern.accepts ⟨[.component [.oneOf k]], false, false⟩ allow [c] isDir = k.admits c := by
  have hslash : afterSlash (matchSteps (Meeting.ofRest allow) [.component [.oneOf k]]) [c] =
      none := by
    simp [afterSlash, matchSteps, matchPieces]
  have hmeets : PathPattern.meets ⟨[.component [.oneOf k]], false, false⟩ allow [c] =
      if k.admits c then some .itself else none := by
    rw [PathPattern.meets, if_neg Bool.false_ne_true, matchSteps, hslash]
    rfl
  rw [PathPattern.accepts, hmeets]
  cases k.admits c <;> rfl

end PathFilter.Pattern

namespace PathFilter.Rule
open Pattern
variable {items : List ClassItem}

/-- **A bracket expression stands for the characters among its items.**  Its line has a rule for
paths, and of the names of one character right below the root this matches those whose character is
among the items, or with a mark those whose character is not.  A slash is never matched, also where
an item lists it or has it between its ends. -/
theorem ofLine?_bracket {mark : Option Char} (hmark : ∀ m ∈ mark, m = '!' ∨ m = '^')
    (hne : items ≠ []) (hitems : ∀ i ∈ items, i.IsOrdered) (root : Text) (allow : Bool) :
    ∃ r : PathRule, ofLine? root allow (bracketLine mark items) = some (.path r) ∧
      ∀ (c : Char) (isDir : Bool) (firstLine : Option Text),
        (Rule.path r).appliesTo ⟨Path.slashed root ++ [c], isDir, firstLine⟩ = true ↔
          c ≠ '/' ∧ ((∃ i ∈ items, i.Has c) ↔ mark = none) := by
  have hline := ofLine?_segment (standsAlone_bracketSegment hmark items) nofun
    (pieces_bracketSegment hmark hne hitems) root allow
  rw [toText_bracketSegment] at hline
  refine ⟨_, hline, fun c isDir firstLine => ?_⟩
  rw [appliesTo_path_iff (List.cons_ne_nil c []) rfl, accepts_oneOf, CharClass.admits_iff,
    Option.isSome_eq_false_iff, Option.isNone_iff_eq_none]

/-- Items that look like the end of the expression, a mark, a dash and the beginning of a name, next
to a name and a range that goes over the slash. -/
def oddItems : List ClassItem :=
  [.single ']', .single '^', .single '-', .named .digit, .range '+' ':', .single '[', .single ':']

/-- Behind a mark, their line is `[!\]\^\-[:digit:]\+-\:\[\:]`, which matches `a` and `\`, and
neither `]` nor the slash. -/
theorem appliesTo_oddItems :
    (∀ m ∈ some '!', m = '!' ∨ m = '^') ∧ oddItems ≠ [] ∧ (∀ i ∈ oddItems, i.IsOrdered) ∧
      bracketLine (some '!') oddItems = "[!\\]\\^\\-[:digit:]\\+-\\:\\[\\:]".toList ∧
      ∃ r : PathRule, ofLine? "/r".toList false (bracketLine (some '!') oddItems) = some (.path r) ∧
        (Rule.path r).appliesTo ⟨"/r/a".toList, false, none⟩ = true ∧
        (Rule.path r).appliesTo ⟨"/r/\\".toList, false, none⟩ = true ∧
        (Rule.path r).appliesTo ⟨"/r/]".toList, false, none⟩ = false ∧
        (Rule.path r).appliesTo ⟨"/r//".toList, false, none⟩ = false := by
  have hmark : ∀ m ∈ some '!', m = '!' ∨ m = '^' := by
    rintro _ ⟨⟩
    exact .inl rfl
  have hne : oddItems ≠ [] := by decide
  have hitems : ∀ i ∈ oddItems, i.IsOrdered := by decide
  obtain ⟨r, hr, happlies⟩ := ofLine?_bracket hmark hne hitems "/r".toList false
  refine ⟨hmark, hne, hitems, by decide, r, hr, ?_, ?_, ?_, ?_⟩
  · exact (happlies 'a' false none).mpr (by decide)
  · exact (happlies '\\' false none).mpr (by decide)
  · exact Bool.eq_false_iff.mpr fun h => absurd ((happlies ']' false none).mp h) (by decide)
  · exact Bool.eq_false_iff.mpr fun h => absurd ((happlies '/' false none).mp h) (by decide)

end PathFilter.Rule
