import PathFilter.Pattern.Line
import PathFilter.Pattern.Segment
import PathFilter.Proofs.Outcome

/-! # Which characters a backslash escapes

The end of a line is judged backwards: a character is escaped if an odd number of backslashes
stands directly before it (`escapedAfter`).  A body is read forwards: its backslashes are paired
from the left (`glyphs`).  Both ways see the same escapes.

* A body has glyphs exactly if no backslash is left over at its end
  (`exists_glyphs_eq_ok_iff`); they are written as the body (`toText_of_glyphs`), and a backslash
  among them is always escaped (`ne_backslash_of_glyphs`).
* What ends a line is dropped with the blanks before it: **spaces and tabs behind a line change
  nothing of what is left of it** (`stripLineEnd_append`), unless a backslash escapes them or a
  line end stands between.
-/

namespace PathFilter.Pattern
variable {c : Char} {t : Text}

/-! ## The backslashes at an end -/

theorem escapedAfter_cons_backslash (r : Text) :
    escapedAfter ('\\' :: r) = !escapedAfter r := by
  rw [escapedAfter, escapedAfter, List.takeWhile_cons_of_pos (by decide), List.length_cons]
  rcases Nat.mod_two_eq_zero_or_one (r.takeWhile (· = '\\')).length with h | h <;>
    simp [Nat.add_mod, h]

theorem escapedAfter_cons (hc : c ≠ '\\') (r : Text) : escapedAfter (c :: r) = false := by
  rw [escapedAfter, List.takeWhile_cons_of_neg (by simpa using hc)]
  rfl

theorem escapedAfter_of_head?_ne {r : Text} (h : r.head? ≠ some '\\') : escapedAfter r = false := by
  cases r with
  | nil => rfl
  | cons c r => exact escapedAfter_cons (fun hc => h (congrArg some hc)) r

/-- What stands behind something else than a backslash does not count. -/
theorem escapedAfter_append {s : Text} (hs : s.head? ≠ some '\\') (r : Text) :
    escapedAfter (r ++ s) = escapedAfter r := by
  induction r with
  | nil => exact escapedAfter_of_head?_ne hs
  | cons a r ih =>
    rw [List.cons_append]
    by_cases ha : a = '\\'
    · rw [ha, escapedAfter_cons_backslash, escapedAfter_cons_backslash, ih]
    · rw [escapedAfter_cons ha, escapedAfter_cons ha]

/-- Nor does a backslash with the character that it escapes, whatever that is. -/
theorem escapedAfter_append_pair (c : Char) (r : Text) :
    escapedAfter (r ++ [c, '\\']) = escapedAfter r := by
  induction r with
  | nil =>
    by_cases hc : c = '\\'
    · subst hc
      rfl
    · exact escapedAfter_cons hc ['\\']
  | cons a r ih =>
    rw [List.cons_append]
    by_cases ha : a = '\\'
    · rw [ha, escapedAfter_cons_backslash, escapedAfter_cons_backslash, ih]
    · rw [escapedAfter_cons ha, escapedAfter_cons ha]

/-! ## Glyphs -/

/-- A backslash stands at the end or begins a pair. -/
theorem ne_backslash_of_no_pair {rest : Text} (hlast : c = '\\' → rest = [] → False)
    (hpair : ∀ d rest', c = '\\' → rest = d :: rest' → False) : c ≠ '\\' := by
  intro hc
  cases rest with
  | nil => exact hlast hc rfl
  | cons d rest => exact hpair d rest hc rfl

/-- **A body is a list of glyphs exactly if its last backslash has a partner.** -/
theorem exists_glyphs_eq_ok_iff (t : Text) :
    (∃ gs, glyphs t = .ok gs) ↔ escapedAfter t.reverse = false := by
  fun_induction glyphs t with
  | case1 => exact iff_of_true ⟨[], rfl⟩ rfl
  | case2 => exact iff_of_false nofun (by decide)
  | case3 c rest ih =>
    refine exists_map_eq_ok_iff.trans (ih.trans ?_)
    rw [List.reverse_cons, List.reverse_cons, List.append_assoc, List.singleton_append,
      escapedAfter_append_pair]
  | case4 c rest hlast hpair ih =>
    have hc := ne_backslash_of_no_pair hlast hpair
    refine exists_map_eq_ok_iff.trans (ih.trans ?_)
    rw [List.reverse_cons, escapedAfter_append (by simpa using hc)]

theorem toText_of_glyphs {gs : List Glyph} (h : glyphs t = .ok gs) : Segment.toText gs = t := by
  fun_induction glyphs t generalizing gs with
  | case1 =>
    cases h
    rfl
  | case2 => cases h
  | case3 c rest ih =>
    obtain ⟨gs, hgs, rfl⟩ := map_eq_ok_iff.mp h
    exact congrArg (['\\', c] ++ ·) (ih hgs)
  | case4 c rest _ _ ih =>
    obtain ⟨gs, hgs, rfl⟩ := map_eq_ok_iff.mp h
    exact congrArg (c :: ·) (ih hgs)

theorem ne_backslash_of_glyphs {gs : List Glyph} (h : glyphs t = .ok gs) {g : Glyph}
    (hg : g ∈ gs) : g ≠ .bare '\\' := by
  fun_induction glyphs t generalizing gs with
  | case1 =>
    cases h
    cases hg
  | case2 => cases h
  | case3 c rest ih =>
    obtain ⟨gs, hgs, rfl⟩ := map_eq_ok_iff.mp h
    rcases List.mem_cons.mp hg with rfl | hg
    · nofun
    · exact ih hgs hg
  | case4 c rest hlast hpair ih =>
    obtain ⟨gs, hgs, rfl⟩ := map_eq_ok_iff.mp h
    rcases List.mem_cons.mp hg with rfl | hg
    · exact fun hc => ne_backslash_of_no_pair hlast hpair (congrArg Glyph.char hc)
    · exact ih hgs hg

/-! ## The end of a line -/

/-- The characters that are dropped at the end of a line, if no backslash escapes them. -/
def IsLineBlank (c : Char) : Prop := c = ' ' ∨ c = '\t'

instance (c : Char) : Decidable (IsLineBlank c) := inferInstanceAs (Decidable (_ ∨ _))

theorem dropBlanksReversed_append {w r : Text} (hw : ∀ c ∈ w, IsLineBlank c)
    (hr : escapedAfter r = false) : dropBlanksReversed (w ++ r) = dropBlanksReversed r := by
  induction w with
  | nil => rfl
  | cons c w ih =>
    have hc : (decide (c = ' ') || decide (c = '\t')) = true := by
      simpa [IsLineBlank] using hw c List.mem_cons_self
    have hbefore : escapedAfter (w ++ r) = false := by
      cases w with
      | nil => exact hr
      | cons d w =>
        refine escapedAfter_cons ?_ (w ++ r)
        rintro rfl
        rcases hw '\\' (by simp) with h | h <;> exact absurd h (by decide)
    rw [List.cons_append, dropBlanksReversed, hbefore, Bool.not_false, Bool.and_true, if_pos hc]
    exact ih fun d hd => hw d (List.mem_cons_of_mem c hd)

theorem dropOne_of_head?_ne {a : Char} {r : Text} (h : r.head? ≠ some a) : dropOne a r = r := by
  cases r with
  | nil => rfl
  | cons c r => exact if_neg fun hc => h (congrArg some hc)

/-- A line without a line end loses the blanks at its end only. -/
theorem stripLineEnd_of_getLast? (hn : t.getLast? ≠ some '\n') (hr : t.getLast? ≠ some '\r') :
    stripLineEnd t = (dropBlanksReversed t.reverse).reverse := by
  rw [stripLineEnd, dropOne_of_head?_ne (r := t.reverse) (by rwa [List.head?_reverse]),
    dropOne_of_head?_ne (by rwa [List.head?_reverse])]

/-- A line that ends in something else than a blank or a line end loses nothing. -/
theorem stripLineEnd_eq_self (h : ∀ c ∈ t.getLast?, ¬ IsLineBlank c ∧ c ≠ '\r' ∧ c ≠ '\n') :
    stripLineEnd t = t := by
  rw [stripLineEnd_of_getLast? (fun hn => (h _ hn).2.2 rfl) (fun hr => (h _ hr).2.1 rfl)]
  rcases List.eq_nil_or_concat t with rfl | ⟨s, c, rfl⟩
  · rfl
  · rw [List.concat_eq_append] at h ⊢
    have hc : (decide (c = ' ') || decide (c = '\t')) = false := by
      simpa [IsLineBlank] using (h c (by simp)).1
    rw [List.reverse_concat, dropBlanksReversed, hc, Bool.false_and, if_neg Bool.false_ne_true,
      List.reverse_cons, List.reverse_reverse]

/-- **Spaces and tabs behind a line change nothing of what is left of it**, if no line end and no
backslash stands before them that would escape the first. -/
theorem stripLineEnd_append {w : Text} (hw : ∀ c ∈ w, IsLineBlank c)
    (hn : t.getLast? ≠ some '\n') (hr : t.getLast? ≠ some '\r')
    (hesc : escapedAfter t.reverse = false) : stripLineEnd (t ++ w) = stripLineEnd t := by
  rcases List.eq_nil_or_concat w with rfl | ⟨w, c, rfl⟩
  · rw [List.append_nil]
  · rw [List.concat_eq_append] at hw ⊢
    have hc : IsLineBlank c := hw c (by simp)
    have hlast : (t ++ (w ++ [c])).getLast? = some c := by
      rw [← List.append_assoc, List.getLast?_concat]
    have hne : ∀ {a : Char}, ¬ IsLineBlank a → (t ++ (w ++ [c])).getLast? ≠ some a := by
      intro a ha h
      rw [hlast] at h
      exact ha (Option.some.inj h ▸ hc)
    rw [stripLineEnd_of_getLast? (hne (by simp [IsLineBlank])) (hne (by simp [IsLineBlank])),
      stripLineEnd_of_getLast? hn hr, List.reverse_append,
      dropBlanksReversed_append (fun d hd => hw d (List.mem_reverse.mp hd)) hesc]

end PathFilter.Pattern
