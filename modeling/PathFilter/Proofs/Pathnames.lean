import PathFilter.FileSystem.Lookup
import PathFilter.Path.Resolver
import PathFilter.Proofs.Components
import PathFilter.Proofs.Outcome

/-! # Pathnames in normal form

A pathname is in normal form if it is anchored and all of its names lead down
(`Pathname.IsNormal`).  What is written for such a pathname is read as that pathname again
(`ofText_toText`), and the lookup of a path goes through its names (`lookupNames_dirText_append`).

* Normalising an anchored pathname puts it in normal form (`isNormal_normalize`), so the base of
  a resolver is in normal form wherever the current directory is an absolute path
  (`isNormal_base`).
* What a resolver finds below its base is a list of names that lead down
  (`relative?_eq_ok_some`), and it finds what a path in normal form says (`relative?_toText`).
-/

namespace PathFilter
open Text

namespace Path
variable {cs : List Text} {c : Text}

/-- Cutting a path at its slashes cuts off the directory it is in, name by name. -/
theorem filter_splitOn_dir_append (f : Text → Bool) (hcs : ∀ c ∈ cs, c.IsName) (t : Text) :
    (splitOn '/' (dir cs ++ t)).filter f = cs.filter f ++ (splitOn '/' t).filter f := by
  induction cs with
  | nil => rfl
  | cons c cs ih =>
    rw [dir_cons, List.append_assoc, List.cons_append, splitOn_append_cons,
      splitOn_of_not_mem (hcs c List.mem_cons_self).2, List.filter_append,
      ih (fun d hd => hcs d (List.mem_cons_of_mem c hd)), ← List.append_assoc,
      ← List.filter_append, List.singleton_append]

theorem joinWith_append_right (ds : List Text) (h : cs ≠ []) :
    joinWith '/' (ds ++ cs) = dir ds ++ joinWith '/' cs := by
  induction ds with
  | nil => rfl
  | cons d ds ih =>
    rw [List.cons_append, joinWith_cons '/' d (by simp [h]), ih, dir_cons, List.append_assoc,
      List.cons_append]

theorem head?_dir_append_ne (hcs : ∀ c ∈ cs, c.IsName) (hc : c.IsName) :
    (dir cs ++ c).head? ≠ some '/' := by
  cases cs with
  | nil =>
    rw [dir_nil, List.nil_append, ← List.append_nil c]
    exact hc.head?_append_ne []
  | cons d cs =>
    rw [dir_cons, List.append_assoc]
    exact (hcs d List.mem_cons_self).head?_append_ne _

end Path

theorem Anchor.filter_splitOn_toText_append {f : Text → Bool} (hf : f [] = false) (a : Anchor)
    (t : Text) : (splitOn '/' (a.toText ++ t)).filter f = (splitOn '/' t).filter f := by
  cases a <;> simp [toText, splitOn, hf]

theorem Anchor.ofText_toText_append {a : Anchor} (ha : a ≠ .relative) {t : Text}
    (ht : t.head? ≠ some '/') : ofText (a.toText ++ t) = a := by
  have hne : ∀ u, t ≠ '/' :: u := fun u h => ht (h ▸ rfl)
  cases a with
  | relative => exact absurd rfl ha
  | slash =>
    cases t with
    | nil => rfl
    | cons c t =>
      show ofText ('/' :: c :: t) = slash
      unfold ofText
      split <;> simp_all
  | doubleSlash =>
    cases t with
    | nil => rfl
    | cons c t =>
      show ofText ('/' :: '/' :: c :: t) = doubleSlash
      unfold ofText
      split <;> simp_all
      rename_i hnone heq
      exact hnone _ heq.symm

theorem Anchor.head?_toText_append {a : Anchor} (ha : a ≠ .relative) (t : Text) :
    (a.toText ++ t).head? = some '/' := by
  cases a with
  | relative => exact absurd rfl ha
  | slash | doubleSlash => rfl

theorem Anchor.ofText_ne_relative {t : Text} (h : t.head? = some '/') : ofText t ≠ .relative := by
  unfold ofText
  split
  · simp
  · simp
  · simp
  · rename_i hne
    cases t with
    | nil => cases h
    | cons c t =>
      obtain rfl : c = '/' := Option.some.inj h
      exact absurd rfl (hne t)

theorem Anchor.ofText_of_head?_ne {t : Text} (h : t.head? ≠ some '/') : ofText t = .relative := by
  cases t with
  | nil => rfl
  | cons c t =>
    have hc : c ≠ '/' := fun e => h (e ▸ rfl)
    unfold ofText
    split <;> simp_all

/-- A path that does not end in a slash is anchored as any path that goes on from it. -/
theorem Anchor.ofText_append {s : Text} (hhead : s.head? = some '/') (hend : s.endsIn '/' = false)
    (t : Text) : ofText (s ++ t) = ofText s := by
  match s with
  | [] => cases hhead
  | [a] =>
    obtain rfl : a = '/' := Option.some.inj hhead
    cases hend
  | [a, b] =>
    obtain rfl : a = '/' := Option.some.inj hhead
    have hb : b ≠ '/' := by
      rintro rfl
      cases hend
    simp [ofText, hb]
  | a :: b :: c :: s =>
    obtain rfl : a = '/' := Option.some.inj hhead
    by_cases hb : b = '/'
    · by_cases hc : c = '/' <;> simp [ofText, hb, hc]
    · simp [ofText, hb]

namespace Pathname
variable {p q : Pathname} {c : Text} {cs : List Text}

/-- Each name that leads down carries something. -/
theorem filter_of_isProper (hcs : ∀ c ∈ cs, Path.IsProper c) :
    cs.filter (fun c => c ≠ [] && c ≠ here) = cs := by
  refine List.filter_eq_self.mpr (fun c hc => ?_)
  have hc := hcs c hc
  simp [hc.1.1, hc.2.1]

/-- An anchored pathname all of whose names lead down. -/
structure IsNormal (p : Pathname) : Prop where
  anchored : p.anchor ≠ .relative
  proper : ∀ c ∈ p.components, Path.IsProper c

/-- The text of an anchored pathname, as the path of a directory. -/
def dirText (p : Pathname) : Text := p.anchor.toText ++ Path.dir p.components

/-- The pathname of what names lead to from a directory. -/
def into (p : Pathname) (cs : List Text) : Pathname := ⟨p.anchor, p.components ++ cs⟩

theorem into_append (p : Pathname) (cs ds : List Text) :
    p.into (cs ++ ds) = (p.into cs).into ds := by
  simp [into]

theorem IsNormal.isName (hp : p.IsNormal) : ∀ c ∈ p.components, c.IsName :=
  fun c hc => (hp.proper c hc).1

theorem IsNormal.into (hp : p.IsNormal) (hcs : ∀ c ∈ cs, Path.IsProper c) :
    (p.into cs).IsNormal :=
  ⟨hp.anchored, fun c hc => (List.mem_append.mp hc).elim (hp.proper c) (hcs c)⟩

theorem dirText_into (p : Pathname) (cs : List Text) :
    (p.into cs).dirText = p.dirText ++ Path.dir cs := by
  rw [dirText, Pathname.into, Path.dir_append, ← List.append_assoc, dirText]

theorem IsNormal.head?_dirText_append (hp : p.IsNormal) (t : Text) :
    (p.dirText ++ t).head? = some '/' := by
  rw [dirText, List.append_assoc]
  exact Anchor.head?_toText_append hp.anchored _

theorem IsNormal.head?_dirText (hp : p.IsNormal) : p.dirText.head? = some '/' := by
  have h := hp.head?_dirText_append []
  rwa [List.append_nil] at h

theorem toText_of_anchored (hp : p.anchor ≠ .relative) :
    p.toText = p.anchor.toText ++ joinWith '/' p.components := by
  rw [toText, if_neg (by simp [hp])]

theorem toText_into (hp : p.anchor ≠ .relative) (hcs : cs ≠ []) :
    (p.into cs).toText = p.dirText ++ joinWith '/' cs := by
  have ha : (p.into cs).anchor ≠ .relative := hp
  rw [toText_of_anchored ha, dirText, Pathname.into, Path.joinWith_append_right p.components hcs,
    List.append_assoc]

/-! ## Texts of pathnames -/

theorem IsNormal.endsIn_dirText (hp : p.IsNormal) : p.dirText.endsIn '/' = true := by
  rcases List.eq_nil_or_concat p.components with h | ⟨cs, c, h⟩
  · rw [dirText, h]
    cases ha : p.anchor with
    | relative => exact absurd ha hp.anchored
    | slash | doubleSlash => rfl
  · rw [dirText, h, List.concat_eq_append, Path.dir_concat, ← List.append_assoc]
    exact endsIn_concat _ '/'

/-- The text of anything but an anchor does not end in a slash. -/
theorem IsNormal.endsIn_toText (hp : p.IsNormal) (hne : p.components ≠ []) :
    p.toText.endsIn '/' = false := by
  obtain ⟨cs, c, h⟩ := List.eq_nil_or_concat p.components |>.resolve_left hne
  rw [List.concat_eq_append] at h
  have hc : c.IsName := hp.isName c (h ▸ List.mem_append_right cs (List.mem_singleton_self c))
  obtain ⟨s, a, rfl, ha⟩ := hc.exists_concat
  rw [toText_of_anchored hp.anchored, h, Path.joinWith_concat, ← List.append_assoc,
    ← List.append_assoc]
  simp [endsIn, ha]

theorem IsNormal.dirText_eq_toText (hp : p.IsNormal) (hnil : p.components = []) :
    p.dirText = p.toText := by
  rw [toText_of_anchored hp.anchored, dirText, hnil]
  rfl

theorem IsNormal.dirText_eq_toText_append (hp : p.IsNormal) (hne : p.components ≠ []) :
    p.dirText = p.toText ++ ['/'] := by
  rw [toText_of_anchored hp.anchored, dirText, Path.dir_eq_joinWith hne, List.append_assoc]

/-- What is written for a directory without the slash at its end is its text. -/
theorem IsNormal.slashed_toText (hp : p.IsNormal) : Path.slashed p.toText = p.dirText := by
  by_cases hnil : p.components = []
  · rw [← hp.dirText_eq_toText hnil, Path.slashed_of_endsIn hp.endsIn_dirText]
  · rw [Path.slashed, if_neg (by simp [hp.endsIn_toText hnil]), hp.dirText_eq_toText_append hnil]

/-- What is written for a pathname in normal form is read as that pathname. -/
theorem IsNormal.ofText_toText (hp : p.IsNormal) : ofText p.toText = p := by
  obtain ⟨a, cs⟩ := p
  rw [toText_of_anchored hp.anchored]
  rcases List.eq_nil_or_concat cs with rfl | ⟨ds, c, rfl⟩
  · cases a with
    | relative => exact absurd rfl hp.anchored
    | slash | doubleSlash => rfl
  · rw [List.concat_eq_append] at hp ⊢
    have hds : ∀ d ∈ ds, d.IsName := fun d hd => hp.isName d (List.mem_append_left [c] hd)
    have hc : c.IsName := hp.isName c (List.mem_append_right ds (List.mem_singleton_self c))
    rw [Path.joinWith_concat, ofText, componentsOf,
      Anchor.ofText_toText_append hp.anchored (Path.head?_dir_append_ne hds hc),
      Anchor.filter_splitOn_toText_append (by simp), Path.filter_splitOn_dir_append _ hds,
      splitOn_of_not_mem hc.2, ← List.filter_append, filter_of_isProper hp.proper]

/-- What is written for a directory in normal form is read as that directory. -/
theorem IsNormal.ofText_dirText (hp : p.IsNormal) : ofText p.dirText = p := by
  have hnames := Path.filter_splitOn_dir_append (fun c => c ≠ [] && c ≠ here) hp.isName []
  rw [List.append_nil, filter_of_isProper hp.proper] at hnames
  rw [ofText, componentsOf, dirText,
    Anchor.ofText_toText_append hp.anchored (Path.head?_dir_ne hp.isName),
    Anchor.filter_splitOn_toText_append (by simp), hnames]
  simp [splitOn]

/-- Names that lead down, with slashes between them, are read as a relative path. -/
theorem ofText_joinWith (hne : cs ≠ []) (hcs : ∀ c ∈ cs, Path.IsProper c) :
    ofText (joinWith '/' cs) = ⟨.relative, cs⟩ := by
  have hhead : (joinWith '/' cs).head? ≠ some '/' := by
    obtain ⟨ds, c, rfl⟩ := List.eq_nil_or_concat cs |>.resolve_left hne
    rw [List.concat_eq_append] at hcs ⊢
    rw [Path.joinWith_concat]
    exact Path.head?_dir_append_ne (fun d hd => (hcs d (List.mem_append_left _ hd)).1)
      (hcs c (by simp)).1
  rw [ofText, componentsOf, Anchor.ofText_of_head?_ne hhead,
    splitOn_joinWith hne (fun c hc => (hcs c hc).1.2), filter_of_isProper hcs]

/-- A path that goes on behind a slash has the components of both its parts. -/
theorem componentsOf_append_cons (s t : Text) :
    componentsOf (s ++ '/' :: t) = componentsOf s ++ componentsOf t := by
  rw [componentsOf, splitOn_append_cons, List.filter_append, ← componentsOf, ← componentsOf]

/-- Names that lead down from an absolute path stand behind its components. -/
theorem ofText_append_joinWith {s : Text} (hhead : s.head? = some '/') (hend : s.endsIn '/' = false)
    (hne : cs ≠ []) (hcs : ∀ c ∈ cs, Path.IsProper c) :
    ofText (s ++ '/' :: joinWith '/' cs) =
      { ofText s with components := (ofText s).components ++ cs } := by
  have hnames : componentsOf (joinWith '/' cs) = cs :=
    congrArg Pathname.components (ofText_joinWith hne hcs)
  rw [ofText, Anchor.ofText_append hhead hend, componentsOf_append_cons, hnames]
  rfl

/-- A relative path is looked up in a directory behind the slash that ends it. -/
theorem IsNormal.join_dirText (hp : p.IsNormal) {t : Text} (ht : t.head? ≠ some '/') :
    Path.join p.dirText t = p.dirText ++ t := by
  rw [Path.join, if_neg ht, if_pos (by rw [hp.endsIn_dirText, Bool.or_true])]

/-! ## Normalising -/

/-- A pathname that is read from a text has names only, none of which stands for the directory
it is found in. -/
theorem isName_of_mem_componentsOf {t : Text} (h : c ∈ componentsOf t) :
    c.IsName ∧ c ≠ here := by
  obtain ⟨hc, hkeep⟩ := List.mem_filter.mp h
  simp only [Bool.and_eq_true, decide_eq_true_eq] at hkeep
  exact ⟨⟨hkeep.1, not_mem_of_mem_splitOn hc⟩, hkeep.2⟩

theorem push_of_ne_above {a : Anchor} (hc : c ≠ above) (stack : List Text) :
    push a stack c = c :: stack := by
  unfold push
  rw [if_pos hc]

theorem foldl_push_of_ne_above {a : Anchor} (hcs : ∀ c ∈ cs, c ≠ above) (stack : List Text) :
    cs.foldl (push a) stack = cs.reverse ++ stack := by
  induction cs generalizing stack with
  | nil => rfl
  | cons c cs ih =>
    rw [List.foldl_cons, push_of_ne_above (hcs c List.mem_cons_self),
      ih (fun d hd => hcs d (List.mem_cons_of_mem c hd)), List.reverse_cons, List.append_assoc,
      List.singleton_append]

/-- What is in normal form is not changed by normalising. -/
theorem IsNormal.normalize_eq (hp : p.IsNormal) : p.normalize = p := by
  rw [normalize, foldl_push_of_ne_above (fun c hc => (hp.proper c hc).2.2), List.append_nil,
    List.reverse_reverse]

/-- Below an anchor, `..` is never put on the stack. -/
theorem mem_foldl_push {a : Anchor} (ha : a ≠ .relative) {stack : List Text}
    (hstack : above ∉ stack) (h : c ∈ cs.foldl (push a) stack) :
    c ∈ stack ∨ (c ∈ cs ∧ c ≠ above) := by
  induction cs generalizing stack with
  | nil => exact .inl h
  | cons d cs ih =>
    rw [List.foldl_cons] at h
    have hpush : above ∉ push a stack d ∧
        ∀ c ∈ push a stack d, c ∈ stack ∨ (c = d ∧ c ≠ above) := by
      by_cases hd : d = above
      · subst hd
        cases stack with
        | nil => simp [push, ha]
        | cons top rest =>
          have htop : top ≠ above := fun e => hstack (e ▸ List.mem_cons_self)
          have hpop : push a (top :: rest) above = rest := by simp [push, htop]
          rw [hpop]
          exact ⟨fun hm => hstack (List.mem_cons_of_mem top hm),
            fun c hc => .inl (List.mem_cons_of_mem top hc)⟩
      · rw [push_of_ne_above hd]
        refine ⟨fun hm => ?_, fun c hc => ?_⟩
        · exact (List.mem_cons.mp hm).elim (fun e => hd e.symm) hstack
        · exact (List.mem_cons.mp hc).elim (fun e => .inr ⟨e, e ▸ hd⟩) .inl
    rcases ih hpush.1 h with hc | ⟨hc, hne⟩
    · rcases hpush.2 c hc with hc | ⟨rfl, hne⟩
      · exact .inl hc
      · exact .inr ⟨List.mem_cons_self, hne⟩
    · exact .inr ⟨List.mem_cons_of_mem d hc, hne⟩

/-- **Normalising an anchored pathname puts it in normal form.** -/
theorem isNormal_normalize (ha : p.anchor ≠ .relative)
    (hp : ∀ c ∈ p.components, c.IsName ∧ c ≠ here) : p.normalize.IsNormal := by
  refine ⟨ha, fun c hc => ?_⟩
  rcases mem_foldl_push ha List.not_mem_nil (List.mem_reverse.mp hc) with h | ⟨hmem, hne⟩
  · exact absurd h List.not_mem_nil
  · exact ⟨(hp c hmem).1, (hp c hmem).2, hne⟩

/-- An absolute path that is its own normal form is the text of a pathname in normal form. -/
theorem isNormal_ofText {t : Text} (ht : Path.normalize t = t)
    (ha : (ofText t).anchor ≠ .relative) : (ofText t).IsNormal ∧ (ofText t).toText = t := by
  have hnormal : (ofText t).normalize.IsNormal :=
    isNormal_normalize ha (fun c hc => isName_of_mem_componentsOf hc)
  have heq : ofText t = (ofText t).normalize := by
    have hread := hnormal.ofText_toText
    rwa [show (ofText t).normalize.toText = t from ht] at hread
  refine ⟨heq ▸ hnormal, ?_⟩
  rw [heq]
  exact ht

/-! ## Entries of a directory -/

/-- A path in normal form that lies in a directory is its own normal form. -/
theorem IsNormal.normalize_dirText_append (hp : p.IsNormal) (hc : Path.IsProper c) :
    Path.normalize (p.dirText ++ c) = p.dirText ++ c := by
  have hpc : (p.into [c]).IsNormal :=
    hp.into (fun d hd => List.mem_singleton.mp hd ▸ hc)
  have htext : (p.into [c]).toText = p.dirText ++ c :=
    toText_into hp.anchored (List.cons_ne_nil c [])
  rw [Path.normalize, ← htext, hpc.ofText_toText, hpc.normalize_eq]

/-- The directory of what bears a name in a directory is that directory. -/
theorem IsNormal.slashed_parent (hp : p.IsNormal) (hc : c.IsName) :
    Path.slashed (Path.parent (p.dirText ++ c)) = p.dirText := by
  obtain ⟨s, hs⟩ : ∃ s, p.dirText = s ++ ['/'] := by
    have h := hp.endsIn_dirText
    rw [endsIn, beq_iff_eq] at h
    exact ⟨p.dirText.dropLast, (List.dropLast_append_getLast? _ h).symm⟩
  have hall : ∀ x ∈ c.reverse, decide (x ≠ '/') = true := fun x hx =>
    decide_eq_true (fun e => hc.2 (e ▸ List.mem_reverse.mp hx))
  have hhead : ((p.dirText ++ c).reverse.dropWhile (· ≠ '/')).reverse = p.dirText := by
    rw [hs, List.reverse_append, List.dropWhile_append_of_pos hall, List.reverse_append,
      List.reverse_singleton, List.singleton_append, List.dropWhile_cons_of_neg (by simp),
      List.reverse_cons, List.reverse_reverse]
  rw [Path.parent, hhead]
  split
  · exact Path.slashed_of_endsIn hp.endsIn_dirText
  · rename_i hslashes
    rcases List.eq_nil_or_concat p.components with h | ⟨ds, d, h⟩
    · refine absurd ?_ hslashes
      rw [dirText, h]
      cases p.anchor <;> rfl
    · rw [List.concat_eq_append] at h
      have hd : d.IsName := hp.isName d (h ▸ List.mem_append_right ds (List.mem_singleton_self d))
      obtain ⟨t, a, rfl, ha⟩ := hd.exists_concat
      have htext : p.dirText = (p.anchor.toText ++ Path.dir ds ++ t ++ [a]) ++ ['/'] := by
        rw [dirText, h, Path.dir_concat]
        simp
      have hdrop : dropTrailing (· = '/') p.dirText =
          p.anchor.toText ++ Path.dir ds ++ t ++ [a] := by
        rw [htext]
        simp [dropTrailing, ha]
      rw [hdrop, Path.slashed, if_neg (by simp [endsIn, ha]), ← htext]

open FileSystem in
/-- What bears a name in a directory lies below that directory, if there are no links. -/
theorem IsNormal.locationOf_dirText_append (hp : p.IsNormal) (hc : c.IsName) :
    locationOf (p.dirText ++ c) = p.components ++ [c] := by
  have hkeep : p.components.filter (· ≠ []) = p.components :=
    List.filter_eq_self.mpr (fun d hd => decide_eq_true (hp.isName d hd).1)
  rw [locationOf, dirText, List.append_assoc, Anchor.filter_splitOn_toText_append (by simp),
    Path.filter_splitOn_dir_append _ hp.isName, splitOn_of_not_mem hc.2, hkeep,
    List.filter_cons_of_pos (by simpa using hc.1), List.filter_nil]

open FileSystem in
/-- The lookup of a path goes through the names of its directory to its last name. -/
theorem IsNormal.lookupNames_dirText_append (hp : p.IsNormal) (hc : c.IsName) :
    lookupNames (p.dirText ++ c) = p.components ++ [c] := by
  obtain ⟨s, a, rfl, ha⟩ := hc.exists_concat
  have hend : (p.dirText ++ (s ++ [a])).endsIn '/' = false := by
    rw [← List.append_assoc]
    simp [endsIn, ha]
  rw [lookupNames, hend, ← locationOf, hp.locationOf_dirText_append hc]
  simp

open FileSystem in
/-- The lookup of a directory asks for a directory behind its names. -/
theorem IsNormal.lookupNames_dirText (hp : p.IsNormal) :
    lookupNames p.dirText = p.components ++ [here] := by
  have hkeep : p.components.filter (· ≠ []) = p.components :=
    List.filter_eq_self.mpr (fun d hd => decide_eq_true (hp.isName d hd).1)
  have hnames := Path.filter_splitOn_dir_append (· ≠ []) hp.isName []
  rw [List.append_nil] at hnames
  rw [lookupNames, hp.endsIn_dirText, dirText, Anchor.filter_splitOn_toText_append (by simp),
    hnames, hkeep]
  simp [splitOn]

theorem below?_eq_some_iff :
    below? p q = some cs ↔ q.anchor = p.anchor ∧ cs ≠ [] ∧ q.components = p.components ++ cs := by
  rw [below?, eq_comm (b := p.components ++ cs), ← List.isPrefixOf?_eq_some_iff_append_eq]
  split
  · rename_i ha
    split
    · rename_i h
      rw [h]
      simp [eq_comm]
    · rename_i hne
      exact ⟨fun h => ⟨ha, fun e => hne (e ▸ h), h⟩, fun h => h.2.2⟩
  · rename_i ha
    exact iff_of_false (by simp) (fun h => ha h.1)

end Pathname

/-! ## Resolvers -/

/-- An absolute path is looked up as it stands. -/
theorem Path.join_of_head? {t : Text} (ht : t.head? = some '/') (dir : Text) : join dir t = t :=
  if_pos ht

theorem Path.head?_join {dir : Text} (h : dir.head? = some '/') (p : Text) :
    (join dir p).head? = some '/' := by
  have hne : dir ≠ [] := fun e => by rw [e] at h; cases h
  rw [join]
  split
  · assumption
  · split
    · rw [List.head?_append, h]
      rfl
    · rw [List.head?_append, h]
      rfl

/-- The directory part of an absolute path is an absolute path. -/
theorem Path.head?_parent {t : Text} (ht : t.head? = some '/') :
    (parent t).head? = some '/' := by
  obtain ⟨t, rfl⟩ : ∃ u, t = '/' :: u := List.head?_eq_some_iff.mp ht
  -- the last component is taken off behind the slash at the beginning, and so are the slashes
  have hdir : (('/' :: t).reverse.dropWhile (· ≠ '/')).reverse =
      '/' :: dropTrailing (· ≠ '/') t := dropTrailing_append_cons rfl [] t
  rw [parent, hdir]
  generalize dropTrailing (· ≠ '/') t = u
  split
  · rfl
  · rename_i hall
    obtain ⟨c, hc, hne⟩ : ∃ c ∈ u, c ≠ '/' := by simpa using hall
    obtain ⟨s, v, rfl⟩ := List.append_of_mem hc
    show (dropTrailing (· = '/') (('/' :: s) ++ c :: v)).head? = some '/'
    rw [dropTrailing_append_cons (decide_eq_false hne)]
    rfl

/-- The normal form of an absolute path is an absolute path. -/
theorem Path.head?_normalize {t : Text} (ht : t.head? = some '/') :
    (normalize t).head? = some '/' := by
  have hanchor : (Pathname.ofText t).normalize.anchor ≠ .relative := Anchor.ofText_ne_relative ht
  rw [normalize, Pathname.toText_of_anchored hanchor]
  exact Anchor.head?_toText_append hanchor _

open Pathname in
/-- A path whose home directory is written out has names only. -/
theorem Homes.isName_of_mem_components {homes : Homes} {t : Text} {p : Pathname}
    (h : homes.expandPathname (.ofText t) = .ok p) : ∀ c ∈ p.components, c.IsName ∧ c ≠ here := by
  intro c hc
  have hread : (ofText t).components = componentsOf t := rfl
  unfold expandPathname at h
  split at h
  · rename_i first rest heq
    have hrest : ∀ c ∈ first :: rest, c.IsName ∧ c ≠ here := by
      intro c hc
      rw [heq] at hread
      change first :: rest = componentsOf t at hread
      exact isName_of_mem_componentsOf (hread ▸ hc)
    split at h
    · simp only at h
      split at h
      · cases h
      · cases h
        rcases List.mem_append.mp hc with hc | hc
        · exact isName_of_mem_componentsOf hc
        · exact hrest c (List.mem_cons_of_mem first hc)
    · cases h
      rw [heq] at hc
      exact hrest c hc
  · cases h
    exact isName_of_mem_componentsOf hc

/-- An anchored pathname begins with no home directory. -/
theorem Homes.expandPathname_of_anchored (homes : Homes) {p : Pathname}
    (hp : p.anchor ≠ .relative) : homes.expandPathname p = .ok p := by
  unfold expandPathname
  split
  · exact absurd rfl hp
  · rfl

namespace Resolver
variable {homes : Homes} {r : Resolver} {cs : List Text}

/-- The base of a resolver is in normal form if the current directory is an absolute path. -/
theorem isNormal_base {cwd : Text} {root : Option Text} (hcwd : cwd.head? = some '/')
    (h : create homes cwd root = .ok r) : r.base.IsNormal := by
  cases root with
  | none =>
    cases h
    exact Pathname.isNormal_normalize (Anchor.ofText_ne_relative hcwd)
      (fun c hc => Pathname.isName_of_mem_componentsOf hc)
  | some root =>
    obtain ⟨p, -, rfl⟩ := map_eq_ok_iff.mp h
    have hnormal := Pathname.isNormal_normalize (p := Pathname.ofText (Path.join cwd p.toText))
      (Anchor.ofText_ne_relative (Path.head?_join hcwd p.toText))
      (fun c hc => Pathname.isName_of_mem_componentsOf hc)
    rw [Path.absolute, Path.normalize, hnormal.ofText_toText]
    exact hnormal

/-- **What a resolver finds below its base is a list of names that lead down.** -/
theorem relative?_eq_ok_some {path rel : Text} (hr : r.base.IsNormal)
    (h : r.relative? homes path = .ok (some rel)) :
    ∃ cs, cs ≠ [] ∧ (∀ c ∈ cs, Path.IsProper c) ∧ rel = joinWith '/' cs := by
  obtain ⟨p, hp, h⟩ := map_eq_ok_iff.mp h
  obtain ⟨q, hq, rfl⟩ := map_eq_ok_iff.mp hp
  obtain ⟨cs, hcs, rfl⟩ := Option.map_eq_some_iff.mp h
  obtain ⟨-, hne, hcomponents⟩ := Pathname.below?_eq_some_iff.mp hcs
  have hnormal : (r.base.under q).normalize.IsNormal := by
    refine Pathname.isNormal_normalize ?_ ?_
    · rw [Pathname.under]
      split
      · exact hr.anchored
      · assumption
    · rw [Pathname.under]
      split
      · intro c hc
        rcases List.mem_append.mp hc with hc | hc
        · exact ⟨(hr.proper c hc).1, (hr.proper c hc).2.1⟩
        · exact Homes.isName_of_mem_components hq c hc
      · exact Homes.isName_of_mem_components hq
  refine ⟨cs, hne, fun c hc => hnormal.proper c ?_, rfl⟩
  rw [hcomponents]
  exact List.mem_append_right _ hc

/-- What is found below the base is a name in a directory. -/
theorem exists_dir_of_relative? {path rel : Text} (hr : r.base.IsNormal)
    (h : r.relative? homes path = .ok (some rel)) :
    ∃ ds name, (∀ d ∈ ds, Path.IsProper d) ∧ Path.IsProper name ∧ rel = Path.dir ds ++ name := by
  obtain ⟨cs, hne, hcs, rfl⟩ := relative?_eq_ok_some hr h
  obtain ⟨ds, name, rfl⟩ := List.eq_nil_or_concat cs |>.resolve_left hne
  rw [List.concat_eq_append] at hcs ⊢
  exact ⟨ds, name, fun d hd => hcs d (List.mem_append_left _ hd), hcs name (by simp),
    Path.joinWith_concat ds name⟩

/-- A path in normal form is found below the base where it says. -/
theorem relative?_toText {p : Pathname} (hp : p.IsNormal) (h : r.base.below? p = some cs) :
    r.relative? homes p.toText = .ok (some (joinWith '/' cs)) := by
  have hresolve : r.resolve homes p.toText = .ok p := by
    rw [resolve, hp.ofText_toText, homes.expandPathname_of_anchored hp.anchored, Except.map,
      Pathname.under, if_neg hp.anchored, hp.normalize_eq]
  rw [relative?, hresolve, Except.map, h]
  rfl

/-- What bears names below the base is found there by its full path. -/
theorem relative?_dirText_append (r : Resolver) (homes : Homes) (hr : r.base.IsNormal)
    (hne : cs ≠ []) (hcs : ∀ c ∈ cs, Path.IsProper c) :
    r.relative? homes (r.base.dirText ++ joinWith '/' cs) = .ok (some (joinWith '/' cs)) := by
  have hbelow : r.base.below? (r.base.into cs) = some cs :=
    Pathname.below?_eq_some_iff.mpr ⟨rfl, hne, rfl⟩
  rw [← Pathname.toText_into hr.anchored hne]
  exact relative?_toText (hr.into hcs) hbelow

end Resolver
end PathFilter
