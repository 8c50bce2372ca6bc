import Mathlib.Data.List.Basic
import Mathlib.Data.List.TakeWhile
import PathFilter.Path.Pathname

/-! # Relative paths and their components

A relative path is read in two ways: as a text, which is what patterns are matched against, and
as the list of the names that lead down to it.  `Text.joinWith` and `Text.splitOn` go from one
to the other; on names that hold no slash they are inverse to each other (`splitOn_joinWith`,
`joinWith_splitOn`), so cutting the text behind a slash is cutting the list of names
(`joinWith_eq_append_cons_iff`).

The directory that names lead to is written with a slash behind each of them (`Path.dir`), and a
path is the directory it is in followed by its name (`joinWith_concat`).  The directories above a
path are the ones met on the way down (`ancestors_dir_append`), each an initial run of the names
(`mem_descend_iff`).
-/

namespace PathFilter

/-- A name that can stand between two slashes. -/
def Text.IsName (c : Text) : Prop := c ≠ [] ∧ '/' ∉ c

/-- A name that leads to something of its own: neither `.` nor `..`. -/
def Path.IsProper (c : Text) : Prop := c.IsName ∧ c ≠ Pathname.here ∧ c ≠ Pathname.above

instance (c : Text) : Decidable c.IsName := inferInstanceAs (Decidable (_ ∧ _))
instance (c : Text) : Decidable (Path.IsProper c) := inferInstanceAs (Decidable (_ ∧ _))

/-- The relative path of the directory that names lead to, with a slash at its end; empty where
there are no names. -/
def Path.dir (ds : List Text) : Text := ds.flatMap (· ++ ['/'])

namespace Text

/-! ## Cutting a text at a separator -/

theorem splitOn_ne_nil (sep : Char) (t : Text) : splitOn sep t ≠ [] := by
  cases t with
  | nil => simp [splitOn]
  | cons c t =>
    rw [splitOn]
    split
    · simp
    · split <;> simp

theorem splitOn_of_not_mem {sep : Char} {t : Text} (h : sep ∉ t) : splitOn sep t = [t] := by
  induction t with
  | nil => rfl
  | cons c t ih =>
    obtain ⟨hc, ht⟩ := List.ne_and_not_mem_of_not_mem_cons h
    rw [splitOn, if_neg (Ne.symm hc), ih ht]

/-- Cutting a text cuts what stands before a separator and what stands behind it. -/
theorem splitOn_append_cons (sep : Char) (s t : Text) :
    splitOn sep (s ++ sep :: t) = splitOn sep s ++ splitOn sep t := by
  induction s with
  | nil => simp [splitOn]
  | cons c s ih =>
    rw [List.cons_append, splitOn, splitOn, ih]
    by_cases hc : c = sep
    · rw [if_pos hc, if_pos hc, List.cons_append]
    · rw [if_neg hc, if_neg hc]
      cases hs : splitOn sep s with
      | nil => exact absurd hs (splitOn_ne_nil sep s)
      | cons piece pieces => rfl

theorem joinWith_cons (sep : Char) (c : Text) {cs : List Text} (h : cs ≠ []) :
    joinWith sep (c :: cs) = c ++ sep :: joinWith sep cs := by
  cases cs with
  | nil => exact absurd rfl h
  | cons d ds => rfl

theorem joinWith_append (sep : Char) {as bs : List Text} (ha : as ≠ []) (hb : bs ≠ []) :
    joinWith sep (as ++ bs) = joinWith sep as ++ sep :: joinWith sep bs := by
  induction as with
  | nil => exact absurd rfl ha
  | cons a as ih =>
    cases as with
    | nil => exact joinWith_cons sep a hb
    | cons a' as =>
      rw [List.cons_append, joinWith_cons sep a (by simp), ih (by simp),
        joinWith_cons sep a (by simp), List.append_assoc, List.cons_append]

theorem joinWith_splitOn (sep : Char) (t : Text) : joinWith sep (splitOn sep t) = t := by
  induction t with
  | nil => rfl
  | cons c t ih =>
    rw [splitOn]
    split
    · rename_i hc
      rw [joinWith_cons sep [] (splitOn_ne_nil sep t), ih, hc, List.nil_append]
    · cases ht : splitOn sep t with
      | nil => exact absurd ht (splitOn_ne_nil sep t)
      | cons piece pieces =>
        rw [ht] at ih
        cases pieces with
        | nil => simpa [joinWith] using ih
        | cons p ps => simpa [joinWith] using ih

theorem splitOn_joinWith {sep : Char} {cs : List Text} (hne : cs ≠ [])
    (hcs : ∀ c ∈ cs, sep ∉ c) : splitOn sep (joinWith sep cs) = cs := by
  induction cs with
  | nil => exact absurd rfl hne
  | cons c cs ih =>
    have hc : sep ∉ c := hcs c List.mem_cons_self
    cases cs with
    | nil => exact splitOn_of_not_mem hc
    | cons d ds =>
      rw [joinWith_cons sep c (by simp), splitOn_append_cons, splitOn_of_not_mem hc,
        ih (by simp) (fun x hx => hcs x (List.mem_cons_of_mem c hx)), List.singleton_append]

/-- The pieces between separators hold none. -/
theorem not_mem_of_mem_splitOn {sep : Char} {t piece : Text} (h : piece ∈ splitOn sep t) :
    sep ∉ piece := by
  induction t generalizing piece with
  | nil =>
    rw [splitOn, List.mem_singleton] at h
    rw [h]
    exact List.not_mem_nil
  | cons c t ih =>
    rw [splitOn] at h
    split at h
    · rcases List.mem_cons.mp h with rfl | h
      · exact List.not_mem_nil
      · exact ih h
    · rename_i hc
      cases ht : splitOn sep t with
      | nil => exact absurd ht (splitOn_ne_nil sep t)
      | cons p ps =>
        rw [ht] at h ih
        rcases List.mem_cons.mp h with rfl | h
        · have hp : sep ∉ p := ih List.mem_cons_self
          exact fun hm => (List.mem_cons.mp hm).elim (fun e => hc e.symm) hp
        · exact ih (List.mem_cons_of_mem p h)

/-- **Cutting a path behind a slash is cutting its list of names.** -/
theorem joinWith_eq_append_cons_iff {sep : Char} {cs : List Text} (hcs : ∀ c ∈ cs, sep ∉ c)
    {s t : Text} (hne : cs ≠ []) :
    joinWith sep cs = s ++ sep :: t ↔
      ∃ as bs, as ≠ [] ∧ bs ≠ [] ∧ cs = as ++ bs ∧ s = joinWith sep as ∧ t = joinWith sep bs := by
  constructor
  · intro h
    refine ⟨splitOn sep s, splitOn sep t, splitOn_ne_nil sep s, splitOn_ne_nil sep t, ?_,
      (joinWith_splitOn sep s).symm, (joinWith_splitOn sep t).symm⟩
    rw [← splitOn_append_cons, ← h, splitOn_joinWith hne hcs]
  · rintro ⟨as, bs, ha, hb, rfl, rfl, rfl⟩
    exact joinWith_append sep ha hb

theorem joinWith_ne_nil {sep : Char} {cs : List Text} (hne : cs ≠ []) (hcs : ∀ c ∈ cs, c ≠ []) :
    joinWith sep cs ≠ [] := by
  cases cs with
  | nil => exact absurd rfl hne
  | cons c cs =>
    have hc : c ≠ [] := hcs c List.mem_cons_self
    cases cs with
    | nil => exact hc
    | cons d ds => simp [joinWith, hc]

/-! ## The ends of a text -/

theorem dropTrailing_append_cons {p : Char → Bool} {c : Char} (hc : p c = false) (s t : Text) :
    dropTrailing p (s ++ c :: t) = s ++ c :: dropTrailing p t := by
  have hreverse : (s ++ c :: t).reverse = t.reverse ++ c :: s.reverse := by simp
  rw [dropTrailing, dropTrailing, hreverse, List.dropWhile_append]
  split
  · rename_i hempty
    rw [List.isEmpty_iff.mp hempty, List.dropWhile_cons_of_neg (by simp [hc])]
    simp
  · simp

theorem dropTrailing_append_of_not {p : Char → Bool} {s : Text} {c : Char} (hc : p c = false) :
    dropTrailing p (s ++ [c]) = s ++ [c] :=
  dropTrailing_append_cons hc s []

theorem endsIn_concat (s : Text) (c : Char) : endsIn c (s ++ [c]) = true := by
  simp [endsIn]

theorem endsIn_append_right (s : Text) {t : Text} (ht : t ≠ []) (c : Char) :
    endsIn c (s ++ t) = endsIn c t := by
  rw [endsIn, endsIn, List.getLast?_append_of_ne_nil s ht]

theorem dropTrailing_of_endsIn_eq_false {t : Text} {c : Char} (h : endsIn c t = false) :
    dropTrailing (· = c) t = t := by
  rcases List.eq_nil_or_concat t with rfl | ⟨s, a, rfl⟩
  · rfl
  · rw [List.concat_eq_append] at h ⊢
    exact dropTrailing_append_of_not (by simpa [endsIn] using h)

/-- A text whose final run of a character has been dropped does not end in that character. -/
theorem endsIn_dropTrailing (c : Char) (t : Text) :
    (dropTrailing (· = c) t).endsIn c = false := by
  rw [endsIn, dropTrailing, List.getLast?_reverse]
  have hnot := List.head?_dropWhile_not (· = c) t.reverse
  cases hhead : (t.reverse.dropWhile (· = c)).head? with
  | none => rfl
  | some d =>
    rw [hhead] at hnot
    simpa using hnot

/-- A name does not end in a slash. -/
theorem IsName.exists_concat {c : Text} (hc : c.IsName) : ∃ s a, c = s ++ [a] ∧ a ≠ '/' := by
  obtain ⟨hne, hs⟩ := hc
  refine ⟨c.dropLast, c.getLast hne, (List.dropLast_concat_getLast hne).symm, ?_⟩
  exact fun h => hs (h ▸ List.getLast_mem hne)

theorem IsName.head?_append_ne {c : Text} (hc : c.IsName) (t : Text) :
    (c ++ t).head? ≠ some '/' := by
  intro h
  obtain ⟨a, c, rfl⟩ := List.exists_cons_of_ne_nil hc.1
  obtain rfl : a = '/' := Option.some.inj h
  exact hc.2 List.mem_cons_self

theorem afterLast_append {sep : Char} {c : Text} (hc : sep ∉ c) (s : Text) :
    afterLast sep (s ++ sep :: c) = c := by
  have h : ∀ x ∈ c.reverse, decide (x ≠ sep) = true := fun x hx =>
    decide_eq_true (fun e => hc (e ▸ List.mem_reverse.mp hx))
  rw [afterLast, List.reverse_append, List.reverse_cons, List.append_assoc,
    List.takeWhile_append_of_pos h]
  simp

end Text

namespace Path
open Text

/-! ## Directories -/

@[simp] theorem dir_nil : dir [] = [] := rfl

@[simp] theorem dir_cons (d : Text) (ds : List Text) : dir (d :: ds) = d ++ '/' :: dir ds := by
  simp [dir]

@[simp] theorem dir_append (as bs : List Text) : dir (as ++ bs) = dir as ++ dir bs := by
  simp [dir]

theorem dir_concat (ds : List Text) (d : Text) : dir (ds ++ [d]) = dir ds ++ d ++ ['/'] := by
  simp [dir]

/-- A relative directory path does not begin with a slash. -/
theorem head?_dir_ne {ds : List Text} (hds : ∀ d ∈ ds, d.IsName) :
    (dir ds).head? ≠ some '/' := by
  cases ds with
  | nil => simp
  | cons d ds =>
    rw [dir_cons]
    exact (hds d List.mem_cons_self).head?_append_ne _

/-- A path is the directory it is in, followed by its name. -/
theorem joinWith_concat (ds : List Text) (c : Text) :
    joinWith '/' (ds ++ [c]) = dir ds ++ c := by
  induction ds with
  | nil => rfl
  | cons d ds ih =>
    rw [List.cons_append, joinWith_cons '/' d (by simp), ih, dir_cons, List.append_assoc,
      List.cons_append]

theorem dir_eq_joinWith {ds : List Text} (h : ds ≠ []) : dir ds = joinWith '/' ds ++ ['/'] := by
  obtain ⟨as, a, rfl⟩ := List.eq_nil_or_concat ds |>.resolve_left h
  rw [List.concat_eq_append, joinWith_concat, dir_concat]

/-- Cutting what is written for a directory at its slashes gives its names, and an empty piece
behind the last slash. -/
theorem splitOn_dir {ds : List Text} (hds : ∀ d ∈ ds, '/' ∉ d) :
    splitOn '/' (dir ds) = ds ++ [[]] := by
  rw [show dir ds = joinWith '/' (ds ++ [[]]) from by rw [joinWith_concat, List.append_nil]]
  refine splitOn_joinWith (by simp) (fun c hc => ?_)
  rcases List.mem_append.mp hc with hc | hc
  · exact hds c hc
  · rw [List.mem_singleton.mp hc]
    exact List.not_mem_nil

/-- Different directories are written differently. -/
theorem dir_inj_of_slash_free {as bs : List Text} (ha : ∀ a ∈ as, '/' ∉ a)
    (hb : ∀ b ∈ bs, '/' ∉ b) (h : dir as = dir bs) : as = bs := by
  have hsplit := splitOn_dir ha
  rw [h, splitOn_dir hb] at hsplit
  exact (List.append_cancel_right hsplit).symm

theorem dir_inj {as bs : List Text} (ha : ∀ a ∈ as, a.IsName) (hb : ∀ b ∈ bs, b.IsName)
    (h : dir as = dir bs) : as = bs :=
  dir_inj_of_slash_free (fun a hm => (ha a hm).2) (fun b hm => (hb b hm).2) h

/-- A directory is written as the beginning of what is written for another one exactly if its
names are the first names of the other. -/
theorem dir_prefix_iff {as bs : List Text} (ha : ∀ a ∈ as, a.IsName) (hb : ∀ b ∈ bs, b.IsName) :
    dir as <+: dir bs ↔ as <+: bs := by
  constructor
  · induction as generalizing bs with
    | nil => exact fun _ => List.nil_prefix
    | cons a as ih =>
      rintro ⟨t, ht⟩
      have ha' : '/' ∉ a := (ha a List.mem_cons_self).2
      cases bs with
      | nil => simp at ht
      | cons b bs =>
        have hb' : '/' ∉ b := (hb b List.mem_cons_self).2
        rw [dir_cons, dir_cons, List.append_assoc, List.cons_append] at ht
        have h := congrArg (splitOn '/') ht
        rw [splitOn_append_cons, splitOn_append_cons, splitOn_of_not_mem ha',
          splitOn_of_not_mem hb'] at h
        have hab : a = b := (List.cons.inj h).1
        subst hab
        have ht' := (List.cons.inj (List.append_cancel_left ht)).2
        exact List.prefix_cons_inj a |>.mpr (ih (fun x hx => ha x (List.mem_cons_of_mem a hx))
          (fun x hx => hb x (List.mem_cons_of_mem a hx)) ⟨t, ht'⟩)
  · rintro ⟨cs, rfl⟩
    exact ⟨dir cs, (dir_append as cs).symm⟩

/-- A directory that a path lies in is met on the way down to the path. -/
theorem prefix_of_dir_prefix_append {as ds : List Text} {name : Text}
    (has : ∀ a ∈ as, a.IsName) (hds : ∀ d ∈ ds, d.IsName) (hname : name.IsName)
    (h : dir as <+: dir ds ++ name) : as <+: ds := by
  obtain ⟨rel, hrel⟩ := h
  have hall : ∀ c ∈ ds ++ [name], c.IsName :=
    List.forall_mem_append.mpr ⟨hds, List.forall_mem_singleton.mpr hname⟩
  have hprefix : dir as <+: dir (ds ++ [name]) :=
    ⟨rel ++ ['/'], by rw [dir_concat, ← hrel, List.append_assoc]⟩
  rw [dir_prefix_iff has hall, List.prefix_concat_iff] at hprefix
  apply hprefix.resolve_left
  -- the directory of the path itself is written with one character more than the path
  rintro rfl
  have hlength := congrArg List.length hrel
  rw [dir_concat] at hlength
  simp only [List.length_append, List.length_singleton] at hlength
  omega

/-! ## The directories above a path -/

theorem descend_append (above : Text) (as bs : List Text) :
    descend above (as ++ bs) = descend above as ++ descend (above ++ dir as) bs := by
  induction as generalizing above with
  | nil => simp [descend]
  | cons a as ih => simp [descend, ih]

theorem descend_concat (above : Text) (ds : List Text) (d : Text) :
    descend above (ds ++ [d]) = descend above ds ++ [above ++ dir (ds ++ [d])] := by
  rw [descend_append]
  simp [descend]

/-- The directories met on the way down are the initial runs of the names. -/
theorem mem_descend_iff {above e : Text} {ds : List Text} :
    e ∈ descend above ds ↔ ∃ as, as ≠ [] ∧ as <+: ds ∧ e = above ++ dir as := by
  induction ds generalizing above with
  | nil =>
    constructor
    · exact fun h => absurd h List.not_mem_nil
    · rintro ⟨as, has, hp, -⟩
      exact absurd (List.prefix_nil.mp hp) has
  | cons d ds ih =>
    rw [descend, List.mem_cons, ih]
    constructor
    · rintro (rfl | ⟨as, has, hp, rfl⟩)
      · exact ⟨[d], by simp, by simp, by simp⟩
      · exact ⟨d :: as, by simp, (List.prefix_cons_inj d).mpr hp, by simp⟩
    · rintro ⟨as, has, hp, rfl⟩
      cases as with
      | nil => exact absurd rfl has
      | cons a as =>
        obtain ⟨rfl, htail⟩ := List.cons_prefix_cons.mp hp
        by_cases h : as = []
        · subst h; exact Or.inl (by simp)
        · exact Or.inr ⟨as, h, htail, by simp⟩

/-- The directories above a path are those met on the way down to the directory it is in. -/
theorem ancestors_dir_append {ds : List Text} {c : Text} (hds : ∀ d ∈ ds, d.IsName)
    (hc : c.IsName) : ancestors (dir ds ++ c) = descend [] ds := by
  obtain ⟨s, a, rfl, ha⟩ := hc.exists_concat
  have hnames : ∀ x ∈ ds ++ [s ++ [a]], '/' ∉ x := by
    intro x hx
    rcases List.mem_append.mp hx with hx | hx
    · exact (hds x hx).2
    · rw [List.mem_singleton.mp hx]; exact hc.2
  rw [ancestors, ← List.append_assoc, dropTrailing_append_of_not (by simpa using ha),
    List.append_assoc, ← joinWith_concat, splitOn_joinWith (by simp) hnames,
    List.dropLast_concat]

/-- The directories above a directory are those met on the way down to the one it is in. -/
theorem ancestors_dir {ds : List Text} (hds : ∀ d ∈ ds, d.IsName) :
    ancestors (dir ds) = descend [] ds.dropLast := by
  rcases List.eq_nil_or_concat ds with rfl | ⟨as, a, rfl⟩
  · rfl
  · rw [List.concat_eq_append] at hds ⊢
    obtain ⟨has, ha⟩ := List.forall_mem_append.mp hds
    have hslash : ancestors (dir as ++ a ++ ['/']) = ancestors (dir as ++ a) := by
      rw [ancestors, ancestors, dropTrailing, List.reverse_append]
      rfl
    rw [dir_concat, hslash, ancestors_dir_append has (ha a (List.mem_singleton_self a)),
      List.dropLast_concat]

theorem name_dir_append {c : Text} (hc : '/' ∉ c) (ds : List Text) : name (dir ds ++ c) = c := by
  rcases List.eq_nil_or_concat ds with rfl | ⟨as, a, rfl⟩
  · have h : ∀ x ∈ c.reverse, decide (x ≠ '/') = true := fun x hx =>
      decide_eq_true (fun e => hc (e ▸ List.mem_reverse.mp hx))
    rw [dir_nil, List.nil_append, name, afterLast, List.takeWhile_eq_self_iff.mpr h,
      List.reverse_reverse]
  · rw [List.concat_eq_append, dir_concat, List.append_assoc, List.append_assoc]
    rw [show dir as ++ (a ++ (['/'] ++ c)) = (dir as ++ a) ++ '/' :: c from by simp]
    exact afterLast_append hc _

/-! ## What lies below a directory -/

theorem below?_eq_some_iff {d p rel : Text} :
    below? d p = some rel ↔ rel ≠ [] ∧ p = d ++ rel := by
  rw [below?, eq_comm (b := d ++ rel), ← List.isPrefixOf?_eq_some_iff_append_eq]
  split
  · rename_i h
    rw [h]
    simp [eq_comm]
  · rename_i hne
    exact ⟨fun h => ⟨fun e => hne (e ▸ h), h⟩, And.right⟩

theorem endsIn_slashed (p : Text) : (slashed p).endsIn '/' = true := by
  rw [slashed]
  split
  · assumption
  · exact endsIn_concat p '/'

theorem slashed_of_endsIn {p : Text} (h : p.endsIn '/') : slashed p = p := if_pos h

end Path
end PathFilter
