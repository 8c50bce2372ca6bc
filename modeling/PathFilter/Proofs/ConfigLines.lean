import Mathlib.Data.List.DropRight
import PathFilter.Proofs.Components
import PathFilter.Proofs.ConfigValues

/-! # Lines that begin a value

Where a value begins, a line of a configuration file holds a key and an equals sign, blanks aside,
and the text of the value (`Assigns`).  All this may stand behind the header of a section
(`IsHeader`), which is read in the same way whatever follows it (`readHeader_eq_ok_iff`).

**What is read of the value is the text of it without the blanks at its ends**
(`readLine_of_beginsValue`).  Blanks are taken from the ends of the line as a whole before the value
is looked at, so that those at its end are gone whatever stands before them.  No other line begins a
value (`exists_beginsValue`).
-/

namespace PathFilter
namespace Text
variable {p : Char → Bool} {s t : Text} {c : Char}

theorem isBlank_eq_false (hlo : 32 < c.toNat) (hhi : c.toNat < 133) : isBlank c = false := by
  rw [isBlank, blankRanges]
  simp only [CodePoint.Ranges.contains]
  simp (disch := omega) only [if_neg, if_pos]

/-- A text without the blanks at its end. -/
def trimEnd (t : Text) : Text := dropTrailing isBlank t

theorem trimEnd_trimEnd (t : Text) : trimEnd (trimEnd t) = trimEnd t := by
  simp only [trimEnd, dropTrailing, List.reverse_reverse, List.dropWhile_idempotent]

/-- A text ends in the blanks that are taken from it. -/
theorem exists_trimEnd_append (t : Text) :
    ∃ blanks, (∀ c ∈ blanks, isBlank c = true) ∧ t = trimEnd t ++ blanks := by
  refine ⟨(t.reverse.takeWhile isBlank).reverse, fun c hc => ?_, ?_⟩
  · exact List.mem_takeWhile_imp (List.mem_reverse.mp hc)
  · rw [trimEnd, dropTrailing, ← List.reverse_append, List.takeWhile_append_dropWhile,
      List.reverse_reverse]

/-- A text is put together from the blanks at its ends and what is left without them. -/
theorem exists_append_strip_append (t : Text) : ∃ lead blanks, (∀ c ∈ lead, isBlank c = true) ∧
    (∀ c ∈ blanks, isBlank c = true) ∧ t = lead ++ (strip t ++ blanks) := by
  obtain ⟨blanks, hblanks, heq⟩ := exists_trimEnd_append (t.dropWhile isBlank)
  refine ⟨t.takeWhile isBlank, blanks, fun c hc => List.mem_takeWhile_imp hc, hblanks, ?_⟩
  have hstrip : strip t = trimEnd (t.dropWhile isBlank) := rfl
  rw [hstrip, ← heq, List.takeWhile_append_dropWhile]

/-- A text is cut where its characters cease to be of a kind. -/
theorem span_append_cons (hs : ∀ d ∈ s, p d = true) (hc : p c = false) (t : Text) :
    (s ++ c :: t).takeWhile p = s ∧ (s ++ c :: t).dropWhile p = c :: t := by
  have hneg : ¬ p c = true := by rw [hc]; exact Bool.false_ne_true
  rw [List.takeWhile_append_of_pos hs, List.dropWhile_append_of_pos hs,
    List.takeWhile_cons_of_neg hneg, List.dropWhile_cons_of_neg hneg, List.append_nil]
  exact ⟨rfl, rfl⟩

end Text

namespace GitConfig

variable {c d : Char} {line t u name sub behind lead gap key value rest : Text}

/-! ## Characters of names -/

theorem isBlank_of_isAlphanum (h : c.isAlphanum = true) : Text.isBlank c = false := by
  have hbetween : ∀ {first last : Char}, first.val ≤ c.val → c.val ≤ last.val →
      32 < first.toNat → last.toNat < 133 → Text.isBlank c = false :=
    fun hfirst hlast hlow hhigh => Text.isBlank_eq_false (Nat.lt_of_lt_of_le hlow hfirst)
      (Nat.lt_of_le_of_lt hlast hhigh)
  rcases Bool.or_eq_true_iff.mp h with halpha | hdigit
  · rcases Bool.or_eq_true_iff.mp halpha with hupper | hlower
    · obtain ⟨hfirst, hlast⟩ := of_decide_eq_true hupper
      exact hbetween hfirst hlast (by decide) (by decide)
    · obtain ⟨hfirst, hlast⟩ := Bool.and_eq_true_iff.mp hlower
      exact hbetween (of_decide_eq_true hfirst) (of_decide_eq_true hlast) (by decide) (by decide)
  · obtain ⟨hfirst, hlast⟩ := Bool.and_eq_true_iff.mp hdigit
    exact hbetween (of_decide_eq_true hfirst) (of_decide_eq_true hlast) (by decide) (by decide)

theorem isBlank_of_isSectionChar (h : isSectionChar c = true) : Text.isBlank c = false := by
  simp only [isSectionChar, Bool.or_eq_true, decide_eq_true_eq] at h
  rcases h with (h | rfl) | rfl
  · exact isBlank_of_isAlphanum h
  · decide
  · decide

/-- Behind a name stands a blank, or what comes behind the blanks. -/
theorem exists_cons_of_blanks {p : Char → Bool} (hp : ∀ c, p c = true → Text.isBlank c = false)
    (hgap : ∀ c ∈ gap, Text.isBlank c = true) (hd : p d = false) (t : Text) :
    ∃ c u, gap ++ d :: t = c :: u ∧ p c = false := by
  cases gap with
  | nil => exact ⟨d, t, rfl, hd⟩
  | cons c gap =>
    refine ⟨c, gap ++ d :: t, rfl, Bool.eq_false_iff.mpr fun hc => ?_⟩
    have hblank := hgap c List.mem_cons_self
    rw [hp c hc] at hblank
    cases hblank

/-! ## Headers -/

theorem readSubsection_cons (hc : c ≠ '\\') (t : Text) :
    readSubsection (c :: t) = if c = '"' then some ([], t)
      else (readSubsection t).map fun (name, behind) => (c :: name, behind) :=
  readSubsection.eq_4 c t (fun h => absurd h hc) (fun _ _ h => absurd h hc)

theorem readSubsection_append (h : readSubsection u = some (sub, behind)) (t : Text) :
    readSubsection (u ++ t) = some (sub, behind ++ t) := by
  fun_induction readSubsection u generalizing sub with
  | case1 => cases h
  | case2 => cases h
  | case3 c u ih =>
    obtain ⟨⟨sub, behind⟩, hsub, heq⟩ := Option.map_eq_some_iff.mp h
    cases heq
    rw [List.cons_append, List.cons_append, readSubsection, ih hsub]
    rfl
  | case4 u hend hescape =>
    cases h
    rfl
  | case5 c u hend hescape hquote ih =>
    obtain ⟨⟨sub, behind⟩, hsub, heq⟩ := Option.map_eq_some_iff.mp h
    cases heq
    rw [List.cons_append, readSubsection_cons (ne_backslash hend hescape), if_neg hquote, ih hsub]
    rfl

/-- The name of a subsection ends where it has been read. -/
theorem exists_of_readSubsection (h : readSubsection u = some (sub, behind)) :
    ∃ front, u = front ++ behind ∧ readSubsection front = some (sub, []) := by
  fun_induction readSubsection u generalizing sub with
  | case1 => cases h
  | case2 => cases h
  | case3 c u ih =>
    obtain ⟨⟨sub, behind⟩, hsub, heq⟩ := Option.map_eq_some_iff.mp h
    cases heq
    obtain ⟨front, hu, hfront⟩ := ih hsub
    exact ⟨'\\' :: c :: front, by rw [hu]; rfl, by rw [readSubsection, hfront]; rfl⟩
  | case4 u hend hescape =>
    cases h
    exact ⟨['"'], rfl, rfl⟩
  | case5 c u hend hescape hquote ih =>
    obtain ⟨⟨sub, behind⟩, hsub, heq⟩ := Option.map_eq_some_iff.mp h
    cases heq
    obtain ⟨front, hu, hfront⟩ := ih hsub
    refine ⟨c :: front, by rw [hu]; rfl, ?_⟩
    rw [readSubsection_cons (ne_backslash hend hescape), if_neg hquote, hfront]
    rfl

/-- The header of a section behind its opening bracket: a name, and perhaps that of a subsection,
with a quote on both of its sides. -/
inductive IsHeader : Text → Text → Prop where
  | plain {lead name gap : Text} (hlead : ∀ c ∈ lead, Text.isBlank c = true) (hne : name ≠ [])
      (hname : ∀ c ∈ name, isSectionChar c = true) (hgap : ∀ c ∈ gap, Text.isBlank c = true) :
      IsHeader (lead ++ (name ++ (gap ++ [']']))) (lower name)
  | quoted {lead name gap sub written after : Text} (hlead : ∀ c ∈ lead, Text.isBlank c = true)
      (hne : name ≠ []) (hname : ∀ c ∈ name, isSectionChar c = true) (hgap_ne : gap ≠ [])
      (hgap : ∀ c ∈ gap, Text.isBlank c = true) (hsub : readSubsection written = some (sub, []))
      (hafter : ∀ c ∈ after, Text.isBlank c = true) :
      IsHeader (lead ++ (name ++ (gap ++ '"' :: (written ++ (after ++ [']'])))))
        (lower name ++ '.' :: sub)

/-- How a text that begins with a name is cut. -/
theorem name_parts (hlead : ∀ c ∈ lead, Text.isBlank c = true) (hne : name ≠ [])
    (hname : ∀ c ∈ name, isSectionChar c = true) (hgap : ∀ c ∈ gap, Text.isBlank c = true)
    (hsection : isSectionChar d = false) (hblank : Text.isBlank d = false) (t : Text) :
    (lead ++ (name ++ (gap ++ d :: t))).dropWhile Text.isBlank = name ++ (gap ++ d :: t) ∧
      (name ++ (gap ++ d :: t)).takeWhile isSectionChar = name ∧
        (name ++ (gap ++ d :: t)).dropWhile isSectionChar = gap ++ d :: t ∧
          (gap ++ d :: t).dropWhile Text.isBlank = d :: t := by
  obtain ⟨e, name', rfl⟩ := List.exists_cons_of_ne_nil hne
  have he : Text.isBlank e = false := isBlank_of_isSectionChar (hname e List.mem_cons_self)
  obtain ⟨c, u, hcons, hc⟩ :=
    exists_cons_of_blanks (fun c => isBlank_of_isSectionChar) hgap hsection t
  have hspan := Text.span_append_cons hname hc u
  rw [← hcons] at hspan
  exact ⟨(Text.span_append_cons hlead he _).2, hspan.1, hspan.2,
    (Text.span_append_cons hgap hblank t).2⟩

/-- Any text can be cut so. -/
theorem exists_name_parts (u : Text) : ∃ lead name gap next,
    ((∀ c ∈ lead, Text.isBlank c = true) ∧ (∀ c ∈ name, isSectionChar c = true) ∧
      ∀ c ∈ gap, Text.isBlank c = true) ∧ u = lead ++ (name ++ (gap ++ next)) ∧
    (u.dropWhile Text.isBlank).takeWhile isSectionChar = name ∧
      (u.dropWhile Text.isBlank).dropWhile isSectionChar = gap ++ next ∧
        (gap ++ next).dropWhile Text.isBlank = next := by
  let t := u.dropWhile Text.isBlank
  let behind := t.dropWhile isSectionChar
  refine ⟨u.takeWhile Text.isBlank, t.takeWhile isSectionChar, behind.takeWhile Text.isBlank,
    behind.dropWhile Text.isBlank, ⟨fun c hc => List.mem_takeWhile_imp hc,
      fun c hc => List.mem_takeWhile_imp hc, fun c hc => List.mem_takeWhile_imp hc⟩, ?_⟩
  rw [List.takeWhile_append_dropWhile, List.takeWhile_append_dropWhile,
    List.takeWhile_append_dropWhile]
  exact ⟨rfl, rfl, rfl, rfl⟩

/-- **What is read as a header is one, whatever stands behind it.** -/
theorem readHeader_eq_ok_iff :
    readHeader u = .ok (name, rest) ↔ ∃ header, IsHeader header name ∧ u = header ++ rest := by
  constructor
  · intro h
    obtain ⟨lead, name', gap, next, ⟨hlead, hname, hgap⟩, hu, htake, hdrop, hnext⟩ :=
      exists_name_parts u
    rw [readHeader, htake, hdrop, hnext] at h
    split at h
    · cases h
    rename_i hempty
    have hne : name' ≠ [] := fun hnil => hempty (List.isEmpty_iff.mpr hnil)
    split at h
    · -- the name of a section alone
      cases h
      exact ⟨_, .plain hlead hne hname hgap, by simp [hu]⟩
    · -- the name of a subsection behind it
      rename_i written
      split at h
      · cases h
      rename_i hquote
      have hgap_ne : gap ≠ [] := by
        rintro rfl
        exact hquote rfl
      split at h
      · cases h
      rename_i sub after hsub
      split at h
      · rename_i rest' hclose
        cases h
        obtain ⟨front, rfl, hfront⟩ := exists_of_readSubsection hsub
        have hafter : ∀ c ∈ after.takeWhile Text.isBlank, Text.isBlank c = true :=
          fun c hc => List.mem_takeWhile_imp hc
        refine ⟨_, .quoted hlead hne hname hgap_ne hgap hfront hafter, ?_⟩
        have hcut : after = after.takeWhile Text.isBlank ++ ']' :: rest := by
          rw [← hclose, List.takeWhile_append_dropWhile]
        rw [hu]
        simpa using hcut
      · cases h
    · cases h
  · rintro ⟨header, hheader, rfl⟩
    cases hheader with
    | @plain lead name gap hlead hne hname hgap =>
      obtain ⟨hfront, htake, hdrop, hnext⟩ := name_parts hlead hne hname hgap (d := ']')
        (by decide) (by decide) rest
      have heq : lead ++ (name ++ (gap ++ [']'])) ++ rest =
          lead ++ (name ++ (gap ++ ']' :: rest)) := by simp
      rw [heq, readHeader, hfront, htake, hdrop, hnext]
      simp [hne]
    | @quoted lead name gap sub written after hlead hne hname hgap_ne hgap hsub hafter =>
      obtain ⟨hfront, htake, hdrop, hnext⟩ := name_parts hlead hne hname hgap (d := '"')
        (by decide) (by decide) (written ++ (after ++ ']' :: rest))
      have heq : lead ++ (name ++ (gap ++ '"' :: (written ++ (after ++ [']'])))) ++ rest =
          lead ++ (name ++ (gap ++ '"' :: (written ++ (after ++ ']' :: rest)))) := by
        simp
      obtain ⟨e, gap', rfl⟩ := List.exists_cons_of_ne_nil hgap_ne
      have he : e ≠ '"' := by
        rintro rfl
        cases hgap '"' List.mem_cons_self
      have hclose : (after ++ ']' :: rest).dropWhile Text.isBlank = ']' :: rest :=
        (Text.span_append_cons hafter (by decide) rest).2
      have hread := readSubsection_append hsub (after ++ ']' :: rest)
      rw [List.nil_append] at hread
      rw [heq, readHeader, hfront, htake, hdrop, hnext]
      simp [hne, he, hread, hclose]

/-! ## Assignments -/

/-- A text assigns to a key: it begins with the key, blanks aside, and behind an equals sign stands
the text of the value. -/
inductive Assigns : Text → Text → Text → Prop where
  | mk {lead key gap value : Text} (hlead : ∀ c ∈ lead, Text.isBlank c = true)
      (hhead : key.head?.any Char.isAlpha = true)
      (hkey : ∀ c ∈ key, c.isAlphanum = true ∨ c = '-')
      (hgap : ∀ c ∈ gap, Text.isBlank c = true) :
      Assigns (lead ++ (key ++ (gap ++ '=' :: value))) key value

namespace Assigns

theorem blanks_append (h : Assigns t key value) (hlead : ∀ c ∈ lead, Text.isBlank c = true) :
    Assigns (lead ++ t) key value := by
  obtain @⟨lead', key, gap, value, hlead', hhead, hkey, hgap⟩ := h
  rw [← List.append_assoc]
  exact .mk (List.forall_mem_append.mpr ⟨hlead, hlead'⟩) hhead hkey hgap

theorem append (h : Assigns t key value) (u : Text) : Assigns (t ++ u) key (value ++ u) := by
  obtain @⟨lead, key, gap, value, hlead, hhead, hkey, hgap⟩ := h
  have heq : lead ++ (key ++ (gap ++ '=' :: value)) ++ u =
      lead ++ (key ++ (gap ++ '=' :: (value ++ u))) := by simp
  rw [heq]
  exact .mk hlead hhead hkey hgap

/-- What assigns without the blanks at its ends does so with them. -/
theorem of_strip (h : Assigns (Text.strip t) key value) : ∃ value, Assigns t key value := by
  obtain ⟨lead, blanks, hlead, -, heq⟩ := Text.exists_append_strip_append t
  rw [heq]
  exact ⟨value ++ blanks, (h.append blanks).blanks_append hlead⟩

end Assigns

/-- The first character of a key. -/
theorem exists_cons_of_head?_any (h : key.head?.any Char.isAlpha = true) :
    ∃ c rest, key = c :: rest ∧ c.isAlpha = true := by
  cases key with
  | nil => cases h
  | cons c rest => exact ⟨c, rest, rfl, h⟩

/-- Without the blanks at its ends, an assignment begins with its key. -/
theorem Assigns.strip_eq (h : Assigns t key value) : ∃ gap,
    (∀ c ∈ gap, Text.isBlank c = true) ∧
      Text.strip t = key ++ (gap ++ '=' :: Text.trimEnd value) := by
  obtain @⟨lead, key, gap, value, hlead, hhead, -, hgap⟩ := h
  refine ⟨gap, hgap, ?_⟩
  obtain ⟨c, rest, rfl, hc⟩ := exists_cons_of_head?_any hhead
  have hblank : Text.isBlank c = false := isBlank_of_isAlphanum (by simp [Char.isAlphanum, hc])
  rw [Text.strip, Text.trim, List.cons_append, (Text.span_append_cons hlead hblank _).2,
    ← List.cons_append, ← List.append_assoc, Text.dropTrailing_append_cons (by decide),
    List.append_assoc]
  rfl

/-- The equals sign stands before the value. -/
theorem Assigns.exists_eq_append (h : Assigns t key value) :
    ∃ front, t = front ++ '=' :: value := by
  obtain @⟨lead, key, gap, value, -, -, -, -⟩ := h
  exact ⟨lead ++ (key ++ gap), by simp⟩

theorem Assigns.trimEnd (h : Assigns t key value) :
    Assigns (Text.trimEnd t) key (Text.trimEnd value) := by
  obtain @⟨lead, key, gap, value, hlead, hhead, hkey, hgap⟩ := h
  rw [Text.trimEnd, ← List.append_assoc, ← List.append_assoc,
    Text.dropTrailing_append_cons (by decide), List.append_assoc, List.append_assoc]
  exact .mk hlead hhead hkey hgap

/-- A key with an equals sign behind it begins a value. -/
theorem readAssignment_of_key (r : LineReader) (hhead : key.head?.any Char.isAlpha = true)
    (hkey : ∀ c ∈ key, c.isAlphanum = true ∨ c = '-') (hgap : ∀ c ∈ gap, Text.isBlank c = true)
    (value : Text) :
    r.readAssignment (key ++ (gap ++ '=' :: value)) =
      match r.inSection with
      | none => .error .keyOutsideSection
      | some name => r.continueValue (name ++ '.' :: lower key) {}
          (value.dropWhile Text.isBlank) := by
  have hall : ∀ c ∈ key, (c.isAlphanum || decide (c = '-')) = true := by
    simpa using hkey
  have hblank : ∀ c : Char, (c.isAlphanum || decide (c = '-')) = true →
      Text.isBlank c = false := by
    intro c hc
    rcases Bool.or_eq_true_iff.mp hc with hc | hc
    · exact isBlank_of_isAlphanum hc
    · rw [of_decide_eq_true hc]
      decide
  -- neither a blank nor an equals sign is a character of a key
  obtain ⟨d, rest, hrest, hd⟩ := exists_cons_of_blanks hblank hgap (d := '=') (by decide) value
  obtain ⟨htake, hdrop⟩ := Text.span_append_cons hall hd rest
  rw [← hrest] at htake hdrop
  have hbehind := (Text.span_append_cons hgap (c := '=') (by decide) value).2
  have hfirst : (key ++ (gap ++ '=' :: value)).head?.any Char.isAlpha = true := by
    obtain ⟨c, rest, rfl, hc⟩ := exists_cons_of_head?_any hhead
    exact hc
  rw [LineReader.readAssignment, hfirst]
  simp only [htake, hdrop, hbehind]
  rfl

/-- What is read as an assignment is one, or else a key alone. -/
theorem exists_assigns_of_readAssignment {r r' : LineReader} {x : Option Assignment}
    (h : r.readAssignment t = .ok (r', x)) :
    (r' = r ∧ ∀ a ∈ x, a.value = flagValue) ∨ ∃ key value, Assigns t key value := by
  rw [LineReader.readAssignment] at h
  split at h
  · cases h
  rename_i hhead
  split at h
  · cases h
  simp only at h
  split at h
  · rename_i value hvalue
    have hhead : t.head?.any Char.isAlpha = true := by simpa using hhead
    obtain ⟨c, rest, rfl, hc⟩ := exists_cons_of_head?_any hhead
    let isKeyChar (c : Char) : Bool := c.isAlphanum || c = '-'
    have hkeyChar : isKeyChar c = true := by simp [isKeyChar, Char.isAlphanum, hc]
    have hkey : ∀ d ∈ (c :: rest).takeWhile isKeyChar, d.isAlphanum = true ∨ d = '-' := by
      intro d hd
      simpa [isKeyChar] using List.mem_takeWhile_imp hd
    have hgap : ∀ d ∈ ((c :: rest).dropWhile isKeyChar).takeWhile Text.isBlank,
        Text.isBlank d = true := fun d hd => List.mem_takeWhile_imp hd
    have hassigns := @Assigns.mk [] _ _ value nofun
      (by rw [List.takeWhile_cons_of_pos hkeyChar]; exact hc) hkey hgap
    rw [← hvalue, List.takeWhile_append_dropWhile, List.takeWhile_append_dropWhile] at hassigns
    exact .inr ⟨_, _, hassigns⟩
  · split at h
    · cases h
      refine .inl ⟨rfl, fun a ha => ?_⟩
      cases ha
      rfl
    · cases h

/-- A text that begins with a letter is no comment. -/
theorem isVoid_eq_false (hhead : key.head?.any Char.isAlpha = true) (t : Text) :
    isVoid (key ++ t) = false := by
  obtain ⟨c, rest, rfl, hc⟩ := exists_cons_of_head?_any hhead
  show isCommentSign c = false
  rw [isCommentSign_eq, decide_eq_false_iff_not]
  intro hmem
  simp only [commentSigns, List.mem_cons, List.not_mem_nil, or_false] at hmem
  rcases hmem with rfl | rfl <;> cases hc

/-! ## Lines -/

/-- A line begins a value, with the text of which it ends.  The assignment may stand behind the
header of a section. -/
inductive BeginsValue : Text → Text → Prop where
  | plain {line key value : Text} : Assigns line key value → BeginsValue line value
  | header {lead header name behind key value : Text} :
      (∀ c ∈ lead, Text.isBlank c = true) → IsHeader header name → Assigns behind key value →
        BeginsValue (lead ++ '[' :: (header ++ behind)) value

/-- An assignment is read on a line of its own. -/
theorem readLine_of_assigns {r : LineReader} (hr : r.pending = none) (h : Assigns line key value) :
    r.readLine line =
      match r.inSection with
      | none => .error .keyOutsideSection
      | some name => r.continueValue (name ++ '.' :: lower key) {}
          ((Text.trimEnd value).dropWhile Text.isBlank) := by
  obtain ⟨gap, hgap, hstrip⟩ := h.strip_eq
  obtain ⟨-, hhead, hkey, -⟩ := h
  rw [LineReader.readLine, hr]
  simp only
  split
  · rename_i header hbracket
    obtain ⟨c, rest, rfl, hc⟩ := exists_cons_of_head?_any hhead
    rw [hstrip] at hbracket
    cases hbracket
    cases hc
  · rw [hstrip, isVoid_eq_false hhead, if_neg Bool.false_ne_true]
    exact readAssignment_of_key r hhead hkey hgap _

/-- An assignment is read behind a header. -/
theorem readLine_of_header {r : LineReader} (hr : r.pending = none)
    (hlead : ∀ c ∈ lead, Text.isBlank c = true) {header : Text} (hheader : IsHeader header name)
    (h : Assigns behind key value) :
    r.readLine (lead ++ '[' :: (header ++ behind)) =
      LineReader.continueValue { r with inSection := some name } (name ++ '.' :: lower key) {}
        ((Text.trimEnd value).dropWhile Text.isBlank) := by
  obtain ⟨gap, hgap, hstrip⟩ := h.trimEnd.strip_eq
  rw [Text.trimEnd_trimEnd] at hstrip
  have hline : Text.strip (lead ++ '[' :: (header ++ behind)) =
      '[' :: (header ++ Text.trimEnd behind) := by
    rw [Text.strip, Text.trim, (Text.span_append_cons hlead (by decide) _).2]
    obtain ⟨front, rfl⟩ := h.exists_eq_append
    rw [Text.trimEnd, Text.dropTrailing_append_cons (by decide), ← List.append_assoc,
      ← List.cons_append, Text.dropTrailing_append_cons (by decide), List.cons_append,
      List.append_assoc]
  have hread : readHeader (header ++ Text.trimEnd behind) = .ok (name, Text.trimEnd behind) :=
    readHeader_eq_ok_iff.mpr ⟨header, hheader, rfl⟩
  obtain ⟨-, hhead, hkey, -⟩ := h
  rw [LineReader.readLine, hr]
  simp only [hline, hread]
  show (if isVoid (Text.strip (Text.trimEnd _)) = true then _ else _) = _
  rw [hstrip, isVoid_eq_false hhead, if_neg Bool.false_ne_true,
    readAssignment_of_key _ hhead hkey hgap]

/-- **Where a value begins, its text is read without the blanks at its ends**, if there is a section
to which its key belongs. -/
theorem readLine_of_beginsValue {r : LineReader} (hr : r.pending = none)
    (h : BeginsValue line value) :
    r.readLine line = .error .keyOutsideSection ∨ ∃ r' key,
      r.readLine line =
        LineReader.continueValue r' key {} ((Text.trimEnd value).dropWhile Text.isBlank) := by
  cases h with
  | plain h =>
    rw [readLine_of_assigns hr h]
    cases r.inSection with
    | none => exact .inl rfl
    | some name => exact .inr ⟨r, _, rfl⟩
  | header hlead hheader h => exact .inr ⟨_, _, readLine_of_header hr hlead hheader h⟩

/-- **No other line begins a value**: what it assigns, if anything, is the value of a key alone. -/
theorem exists_beginsValue {r r' : LineReader} {x : Option Assignment} (hr : r.pending = none)
    (h : r.readLine line = .ok (r', x)) :
    (r'.pending = none ∧ ∀ a ∈ x, a.value = flagValue) ∨ ∃ value, BeginsValue line value := by
  have hnone : ∀ a ∈ (none : Option Assignment), a.value = flagValue :=
    fun a ha => absurd ha (Option.not_mem_none a)
  rw [LineReader.readLine, hr] at h
  simp only at h
  split at h
  · rename_i header hbracket
    obtain ⟨⟨name, rest⟩, hheader, hrest⟩ := bind_eq_ok_iff.mp h
    obtain ⟨written, hwritten, rfl⟩ := readHeader_eq_ok_iff.mp hheader
    split at hrest
    · cases hrest
      exact .inl ⟨rfl, hnone⟩
    · rcases exists_assigns_of_readAssignment hrest with ⟨rfl, hflag⟩ | ⟨key, value, hassigns⟩
      · exact .inl ⟨rfl, hflag⟩
      · obtain ⟨value, hassigns⟩ := hassigns.of_strip
        obtain ⟨lead, blanks, hlead, -, heq⟩ := Text.exists_append_strip_append line
        refine .inr ⟨value ++ blanks, ?_⟩
        rw [heq, hbracket, List.cons_append, List.append_assoc]
        exact .header hlead hwritten (hassigns.append blanks)
  · split at h
    · cases h
      exact .inl ⟨hr, hnone⟩
    · rcases exists_assigns_of_readAssignment h with ⟨rfl, hflag⟩ | ⟨key, value, hassigns⟩
      · exact .inl ⟨hr, hflag⟩
      · obtain ⟨value, hassigns⟩ := hassigns.of_strip
        exact .inr ⟨value, .plain hassigns⟩

end GitConfig
end PathFilter
