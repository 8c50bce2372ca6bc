import PathFilter.Proofs.PathLines

/-! # Blanks behind a line

The spaces and tabs at the end of a line are dropped before the line is read.  A line of a list of
paths is first turned into a pattern, with the blanks still there, and what they stand behind
decides whether this changes its meaning.

* Lines of which the same is left have the same rule, but for the line itself
  (`ofLine?_sameButLine`), so these rules match alike (`ofLine?_alike`).
* The last component of a path is what stands behind its last slash.  If it is not `.` or `..`,
  and not a home directory, then blanks behind the path stand behind its pattern as well
  (`patternOfPath_append_blanks`).
* **So blanks behind a line change nothing for an ignore file, and nothing for a list of paths
  where they stand apart from what the path means** (`trailing_blanks_alike`, `BlanksApart`).
* They do change the meaning of the line `.`: it stands for the root, and with a blank behind it
  for something below the root that bears no such name (`blank_behind_dot_changes`).
-/

namespace PathFilter
open Text

/-! ## Rules that match alike -/

namespace Rule
open Pattern Pathname
variable {homes : Homes} {b : Pathname} {root line line' p w : Text} {cs : List Text}
  {allow : Bool}

/-- Two rules match the same candidates, and may match within the same directories. -/
def Alike (r r' : Rule) : Prop :=
  ∀ c, r.appliesTo c = r'.appliesTo c ∧ r.mayMatchWithin c = r'.mayMatchWithin c

theorem alike_unmatchable (negated negated' : Bool) :
    Alike (.unmatchable line negated) (.unmatchable line' negated') := by
  refine fun c => ⟨rfl, ?_⟩
  simp [mayMatchWithin, root?]

/-- Two rules of one kind that differ in nothing but the line that they are written as. -/
inductive SameButLine : Rule → Rule → Prop
  | path (r : PathRule) (line : Text) : SameButLine (.path r) (.path { r with line })
  | interpreter (r : InterpreterRule) (line : Text) :
    SameButLine (.interpreter r) (.interpreter { r with line })
  | unmatchable (line line' : Text) (negated : Bool) :
    SameButLine (.unmatchable line negated) (.unmatchable line' negated)

theorem SameButLine.negated_eq {r r' : Rule} (h : SameButLine r r') : r.negated = r'.negated := by
  cases h <;> rfl

/-- The line that a rule is written as has no part in what it matches. -/
theorem SameButLine.alike {r r' : Rule} (h : SameButLine r r') : Alike r r' := by
  cases h with
  | path r line | interpreter r line => exact fun c => ⟨rfl, rfl⟩
  | unmatchable line line' negated => exact alike_unmatchable negated negated

/-- **Lines of which the same is left have the same rule**, but for the line itself. -/
theorem ofLine?_sameButLine (h : stripLineEnd line = stripLineEnd line') :
    Option.Rel SameButLine (ofLine? root allow line) (ofLine? root allow line') := by
  rw [ofLine?, ofLine?, Line.read, Line.read, h, ← Line.read]
  cases Line.read line' with
  | none => exact .none
  | some l =>
    refine .some ?_
    cases l with
    | interpreter negated name =>
      rw [ofPattern, ofPattern]
      split
      · exact .unmatchable line line' negated
      · exact .interpreter _ line'
    | path negated body =>
      rw [ofPattern, ofPattern]
      split
      · exact .unmatchable line line' negated
      · exact .path _ line'

theorem ofLine?_alike (h : stripLineEnd line = stripLineEnd line') :
    Option.Rel Alike (ofLine? root allow line) (ofLine? root allow line') := by
  have hsame : Option.Rel SameButLine (ofLine? root allow line) (ofLine? root allow line') :=
    ofLine?_sameButLine h
  generalize ofLine? root allow line = x, ofLine? root allow line' = x' at hsame ⊢
  cases hsame with
  | none => exact .none
  | some h => exact .some h.alike

/-! ## The end of a path -/

/-- A text behind which blanks are dropped: it ends neither in a line end nor in a backslash
without a partner. -/
structure BearsBlanks (t : Text) : Prop where
  line_feed : t.getLast? ≠ some '\n'
  carriage_return : t.getLast? ≠ some '\r'
  escape : escapedAfter t.reverse = false

theorem BearsBlanks.stripLineEnd_append {t : Text} (ht : BearsBlanks t)
    (hw : ∀ c ∈ w, IsLineBlank c) : stripLineEnd (t ++ w) = stripLineEnd t :=
  Pattern.stripLineEnd_append hw ht.line_feed ht.carriage_return ht.escape

/-- Only what stands behind the last slash matters. -/
theorem BearsBlanks.of_append {s s' t : Text} (h : BearsBlanks (s ++ t)) (ht : t ≠ [])
    (hs : s.getLast? ≠ some '\\') (hs' : s'.getLast? ≠ some '\\') : BearsBlanks (s' ++ t) := by
  have hlast : (s' ++ t).getLast? = (s ++ t).getLast? := by
    rw [List.getLast?_append_of_ne_nil s' ht, List.getLast?_append_of_ne_nil s ht]
  refine ⟨hlast ▸ h.line_feed, hlast ▸ h.carriage_return, ?_⟩
  have hescape := h.escape
  rw [List.reverse_append, escapedAfter_append (by rwa [List.head?_reverse])] at hescape ⊢
  exact hescape

theorem bearsBlanks_of_slash {t : Text} (h : t.getLast? = some '/') : BearsBlanks t := by
  refine ⟨by simp [h], by simp [h], escapedAfter_of_head?_ne ?_⟩
  rw [List.head?_reverse, h]
  decide

/-- A path is what stands before its last component, which follows a slash unless it is all. -/
theorem eq_name_or_exists_append (p : Text) :
    (Path.name p = p ∧ '/' ∉ p) ∨ '/' ∉ Path.name p ∧ ∃ d, p = d ++ '/' :: Path.name p := by
  have hsplit := List.takeWhile_append_dropWhile (p := (· ≠ '/')) (l := p.reverse)
  have hname : '/' ∉ Path.name p := by
    intro h
    have := List.mem_takeWhile_imp (List.mem_reverse.mp h)
    simp at this
  cases hdrop : p.reverse.dropWhile (· ≠ '/') with
  | nil =>
    rw [hdrop, List.append_nil] at hsplit
    have heq : Path.name p = p := by
      rw [Path.name, afterLast, hsplit, List.reverse_reverse]
    exact .inl ⟨heq, heq ▸ hname⟩
  | cons c rest =>
    have hc := List.head?_dropWhile_not (· ≠ '/') p.reverse
    rw [hdrop] at hc hsplit
    obtain rfl : c = '/' := by simpa using hc
    refine .inr ⟨hname, rest.reverse, ?_⟩
    have := congrArg List.reverse hsplit
    rw [List.reverse_append, List.reverse_reverse, List.reverse_cons, List.append_assoc] at this
    exact this.symm

theorem takeWhile_append_slash (d u : Text) :
    (d ++ '/' :: u).takeWhile (· ≠ '/') = d.takeWhile (· ≠ '/') := by
  induction d with
  | nil => rfl
  | cons c d ih =>
    by_cases hc : c = '/'
    · subst hc
      rfl
    · rw [List.cons_append, List.takeWhile_cons_of_pos (by simpa using hc), ih,
        List.takeWhile_cons_of_pos (by simpa using hc)]

theorem dropWhile_append_slash (d u : Text) :
    (d ++ '/' :: u).dropWhile (· ≠ '/') = d.dropWhile (· ≠ '/') ++ '/' :: u := by
  induction d with
  | nil => rfl
  | cons c d ih =>
    by_cases hc : c = '/'
    · subst hc
      rfl
    · rw [List.cons_append, List.dropWhile_cons_of_pos (by simpa using hc), ih,
        List.dropWhile_cons_of_pos (by simpa using hc)]

theorem expand_of_head?_ne (homes : Homes) (h : p.head? ≠ some '~') : homes.expand p = p := by
  rw [Homes.expand]
  rintro t rfl
  exact h rfl

/-- The home directory that a path begins with does not depend on what follows a slash. -/
theorem exists_expand_append (homes : Homes) (d : Text) :
    ∃ e, ∀ u, homes.expand (d ++ '/' :: u) = e ++ '/' :: u := by
  cases d with
  | nil => exact ⟨[], fun u => rfl⟩
  | cons c d =>
    by_cases hc : c = '~'
    · subst hc
      cases hhome : homes.of (d.takeWhile (· ≠ '/')) with
      | none =>
        refine ⟨'~' :: d, fun u => ?_⟩
        rw [List.cons_append, Homes.expand, beforeFirst, takeWhile_append_slash, hhome]
      | some home =>
        refine ⟨dropTrailing (· = '/') home ++ d.dropWhile (· ≠ '/'), fun u => ?_⟩
        rw [List.cons_append, Homes.expand, beforeFirst, takeWhile_append_slash, hhome]
        simp only [dropWhile_append_slash]
        rw [if_neg (by simp), List.append_assoc]
    · exact ⟨c :: d, fun u => expand_of_head?_ne homes (by simpa using hc)⟩

/-- A path is looked up with its last component as it stands, and with blanks behind that. -/
theorem exists_join_expand (hb : b.IsNormal) (homes : Homes)
    (hhome : '/' ∈ p ∨ p.head? ≠ some '~') :
    ∃ e, Path.join b.dirText (homes.expand p) = e ++ '/' :: Path.name p ∧
      ∀ w, (∀ c ∈ w, IsLineBlank c) →
        Path.join b.dirText (homes.expand (p ++ w)) = e ++ '/' :: (Path.name p ++ w) := by
  rcases eq_name_or_exists_append p with ⟨hname, hslash⟩ | ⟨-, d, hd⟩
  · -- a single component is looked up in the directory, which ends in a slash
    have htilde : p.head? ≠ some '~' := hhome.resolve_left hslash
    obtain ⟨e, he⟩ : ∃ e, b.dirText = e ++ ['/'] := by
      have hend := hb.endsIn_dirText
      rw [endsIn, beq_iff_eq] at hend
      exact ⟨b.dirText.dropLast, (List.dropLast_append_getLast? _ hend).symm⟩
    have hjoin : ∀ t, t.head? ≠ some '~' → '/' ∉ t →
        Path.join b.dirText (homes.expand t) = e ++ '/' :: t := by
      intro t ht hts
      have hhead : t.head? ≠ some '/' := fun h => hts (List.mem_of_mem_head? h)
      rw [expand_of_head?_ne homes ht, hb.join_dirText hhead, he, List.append_assoc]
      rfl
    refine ⟨e, by rw [hname]; exact hjoin p htilde hslash, fun w hw => ?_⟩
    rw [hname]
    have hnone : ∀ c, ¬ IsLineBlank c → c ∉ w := fun c hc hmem => hc (hw c hmem)
    refine hjoin (p ++ w) (fun h => ?_) fun h => ?_
    · rw [List.head?_append, Option.or_eq_some_iff] at h
      exact h.elim htilde fun h => hnone '~' (by decide) (List.mem_of_mem_head? h.2)
    · exact (List.mem_append.mp h).elim hslash (hnone '/' (by decide))
  · -- what precedes the last slash is looked up alike, whatever follows
    obtain ⟨e, he⟩ := exists_expand_append homes d
    have hjoin : ∃ f, ∀ u, Path.join b.dirText (e ++ '/' :: u) = f ++ '/' :: u := by
      cases e with
      | nil => exact ⟨[], fun u => rfl⟩
      | cons c e =>
        by_cases hc : c = '/'
        · subst hc
          exact ⟨'/' :: e, fun u => rfl⟩
        · exact ⟨b.dirText ++ c :: e, fun u => by
            rw [hb.join_dirText (by simpa using hc), List.append_assoc]⟩
    obtain ⟨f, hf⟩ := hjoin
    refine ⟨f, ?_, fun w _ => ?_⟩
    · conv_lhs => rw [hd, he, hf]
    · conv_lhs => rw [hd, List.append_assoc, List.cons_append, he, hf]

/-- What follows a slash and does not begin with another leaves the anchor as it is. -/
theorem ofText_append_slash (e : Text) {u : Text} (hu : u.head? ≠ some '/') :
    Anchor.ofText (e ++ '/' :: u) = Anchor.ofText (e ++ ['/']) := by
  cases u with
  | nil => rfl
  | cons c u =>
    have hc : c ≠ '/' := fun h => hu (congrArg some h)
    match e with
    | [] => simp [Anchor.ofText, hc]
    | [x] => by_cases hx : x = '/' <;> simp [Anchor.ofText, hc, hx]
    | [x, y] => by_cases hx : x = '/' <;> by_cases hy : y = '/' <;> simp [Anchor.ofText, hx, hy]
    | x :: y :: z :: e =>
      by_cases hx : x = '/' <;> by_cases hy : y = '/' <;> by_cases hz : z = '/' <;>
        simp [Anchor.ofText, hx, hy, hz]

/-- A proper name behind a slash is put below what stands before. -/
theorem normalize_append (e : Text) {u : Text} (hu : Path.IsProper u) :
    (ofText (e ++ '/' :: u)).normalize = (ofText (e ++ ['/'])).normalize.into [u] := by
  have hhead : u.head? ≠ some '/' := fun h => hu.1.2 (List.mem_of_mem_head? h)
  have hcomponents : componentsOf u = [u] := by
    rw [componentsOf, splitOn_of_not_mem hu.1.2]
    exact filter_of_isProper fun c hc => List.mem_singleton.mp hc ▸ hu
  have hnil : componentsOf [] = [] := rfl
  rw [Pathname.normalize, Pathname.normalize, ofText, ofText, componentsOf_append_cons,
    componentsOf_append_cons, hcomponents, hnil, ofText_append_slash e hhead, List.append_nil,
    List.foldl_append]
  simp only [List.foldl_cons, List.foldl_nil, push_of_ne_above hu.2.2, List.reverse_cons, into]

/-- Blanks do not make a path begin with another character. -/
theorem head?_append_blanks_ne {a : Char} (ha : ¬ IsLineBlank a) (hp : p.head? ≠ some a)
    (hw : ∀ c ∈ w, IsLineBlank c) : (p ++ w).head? ≠ some a := by
  intro h
  rw [List.head?_append, Option.or_eq_some_iff] at h
  exact h.elim hp fun h => ha (hw a (List.mem_of_mem_head? h.2))

theorem endsIn_append_blanks (hwnil : w ≠ []) (hw : ∀ c ∈ w, IsLineBlank c) :
    (p ++ w).endsIn '/' = false := by
  rw [endsIn_append_right p hwnil, endsIn, beq_eq_false_iff_ne]
  exact fun h => absurd (hw _ (List.mem_of_getLast? h)) (by decide)

/-- A name is still a proper one with blanks behind it. -/
theorem isProper_append_blanks {u : Text} (hu : '/' ∉ u) (hwnil : w ≠ [])
    (hw : ∀ c ∈ w, IsLineBlank c) : Path.IsProper (u ++ w) := by
  have hdot : ∀ t : Text, t.getLast? = some '.' → u ++ w ≠ t := by
    rintro t ht rfl
    rw [List.getLast?_append_of_ne_nil u hwnil] at ht
    exact absurd (hw _ (List.mem_of_getLast? ht)) (by decide)
  refine ⟨⟨by simp [hwnil], fun h => ?_⟩, hdot here rfl, hdot above rfl⟩
  exact (List.mem_append.mp h).elim hu fun h => absurd (hw _ h) (by decide)

theorem not_mem_name (p : Text) : '/' ∉ Path.name p := by
  rcases eq_name_or_exists_append p with ⟨hname, hslash⟩ | ⟨hslash, -⟩
  · rwa [hname]
  · exact hslash

/-- A path ends in a slash if no name is behind its last one. -/
theorem endsIn_of_name_eq_nil (hp : p ≠ []) (hname : Path.name p = []) : p.endsIn '/' = true := by
  rcases eq_name_or_exists_append p with ⟨heq, -⟩ | ⟨-, d, hd⟩
  · exact absurd (heq.symm.trans hname) hp
  · rw [hd, hname]
    exact endsIn_concat d '/'

theorem endsIn_of_name_ne_nil (hname : Path.name p ≠ []) : p.endsIn '/' = false := by
  have hlast : (Path.name p).endsIn '/' = false := by
    rw [endsIn, beq_eq_false_iff_ne]
    exact fun h => not_mem_name p (List.mem_of_getLast? h)
  rcases eq_name_or_exists_append p with ⟨hp, -⟩ | ⟨-, d, hd⟩
  · rwa [hp] at hlast
  · rw [hd, List.append_cons, endsIn_append_right _ hname]
    exact hlast

/-- The last component of what lies below a directory, and where the rest lies. -/
theorem exists_concat_of_into_eq {q : Pathname} {u : Text} (hcs : cs ≠ [])
    (heq : q.into [u] = b.into cs) : ∃ ds, cs = ds ++ [u] ∧ q = b.into ds := by
  obtain ⟨hanchor, hcomponents⟩ := eq_into_iff.mp heq
  obtain ⟨ds, x, rfl⟩ := List.eq_nil_or_concat cs |>.resolve_left hcs
  rw [List.concat_eq_append, ← List.append_assoc] at hcomponents
  obtain ⟨hds, hx⟩ := List.append_inj' hcomponents rfl
  refine ⟨ds, ?_, eq_into_iff.mpr ⟨hanchor, hds⟩⟩
  rw [List.concat_eq_append, ← List.singleton_inj.mp hx]

/-- The pattern of a path with blanks behind it, once it is known where what stands in front of its
last slash lies. -/
theorem patternOfPath_append_of_ne_nil (hb : b.IsNormal) (hglob : p.head? ≠ some '*') {e : Text}
    (hjoin : Path.join b.dirText (homes.expand (p ++ w)) = e ++ '/' :: (Path.name p ++ w))
    {ds : List Text} (hds : (ofText (e ++ ['/'])).normalize = b.into ds) (hwnil : w ≠ [])
    (hw : ∀ c ∈ w, IsLineBlank c) :
    patternOfPath homes b.dirText (p ++ w) = some ('/' :: Path.dir ds ++ Path.name p ++ w) := by
  have htarget : target homes b (p ++ w) = b.into (ds ++ [Path.name p ++ w]) := by
    rw [target, hjoin, normalize_append e (isProper_append_blanks (not_mem_name p) hwnil hw), hds,
      into_append]
  rw [patternOfPath_of_below hb (head?_append_blanks_ne (by decide) hglob hw) (by simp) htarget,
    endsIn_append_blanks hwnil hw, if_neg Bool.false_ne_true, List.append_nil,
    Path.joinWith_concat]
  simp

/-- **Blanks behind a path that names something below the root stand behind its pattern**, if its
last component is not `.` or `..`, and no home directory. -/
theorem patternOfPath_append_blanks (hb : b.IsNormal) (hglob : p.head? ≠ some '*')
    (hhome : '/' ∈ p ∨ p.head? ≠ some '~') (hhere : Path.name p ≠ here)
    (habove : Path.name p ≠ above) (hcs : cs ≠ []) (hbelow : target homes b p = b.into cs)
    (hw : ∀ c ∈ w, IsLineBlank c) :
    ∃ s, s.getLast? = some '/' ∧ patternOfPath homes b.dirText p = some (s ++ Path.name p) ∧
      patternOfPath homes b.dirText (p ++ w) = some (s ++ Path.name p ++ w) := by
  have hpattern := patternOfPath_of_below hb hglob hcs hbelow
  obtain ⟨e, he, hew⟩ := exists_join_expand hb homes (p := p) hhome
  rw [target, he] at hbelow
  -- what stands in front of the last slash lies at or below the root, and begins the pattern
  obtain ⟨ds, hds, heq⟩ : ∃ ds, (ofText (e ++ ['/'])).normalize = b.into ds ∧
      patternOfPath homes b.dirText p = some ('/' :: Path.dir ds ++ Path.name p) := by
    by_cases hname : Path.name p = []
    · rw [hname] at hbelow he ⊢
      have hp : p ≠ [] := by
        rintro rfl
        have hroot : e ++ ['/'] = b.dirText :=
          he.symm.trans ((hb.join_dirText (t := []) nofun).trans (List.append_nil _))
        rw [hroot, hb.ofText_dirText, hb.normalize_eq] at hbelow
        exact hcs (List.self_eq_append_right.mp (eq_into_iff.mp hbelow).2)
      rw [endsIn_of_name_eq_nil hp hname, if_pos rfl] at hpattern
      exact ⟨cs, hbelow, by rw [hpattern, Path.dir_eq_joinWith hcs, List.append_nil]; rfl⟩
    · have hproper : Path.IsProper (Path.name p) := ⟨⟨hname, not_mem_name p⟩, hhere, habove⟩
      rw [normalize_append e hproper] at hbelow
      obtain ⟨ds, rfl, hds⟩ := exists_concat_of_into_eq hcs hbelow
      rw [endsIn_of_name_ne_nil hname, if_neg Bool.false_ne_true, List.append_nil,
        Path.joinWith_concat] at hpattern
      exact ⟨ds, hds, hpattern⟩
  refine ⟨'/' :: Path.dir ds, ?_, heq, ?_⟩
  · by_cases hdsnil : ds = []
    · rw [hdsnil]
      rfl
    · rw [Path.dir_eq_joinWith hdsnil, ← List.cons_append, List.getLast?_concat]
  · by_cases hwnil : w = []
    · rw [hwnil, List.append_nil, List.append_nil]
      exact heq
    · exact patternOfPath_append_of_ne_nil hb hglob (hew w hw) hds hwnil hw

/-! ## Lines with blanks behind them -/

/-- Blanks stand apart from what a line of a list of paths means: there is nothing on it; it is a
pattern already; it leads outside with the blanks and without them; or what it names lies below
the root, and its last component is not `.`, `..` or a home directory. -/
inductive BlanksApart (homes : Homes) (b : Pathname) (line w : Text) : Prop where
  | blank : (∀ c ∈ line, isBlank c = true) → BlanksApart homes b line w
  | glob : (pathOn line).head? = some '*' → BlanksApart homes b line w
  | outside : patternOfPath homes b.dirText (pathOn line) = none →
      patternOfPath homes b.dirText (pathOn line ++ w) = none → BlanksApart homes b line w
  | below {cs : List Text} : cs ≠ [] → target homes b (pathOn line) = b.into cs →
      Path.name (pathOn line) ≠ here → Path.name (pathOn line) ≠ above →
      ('/' ∈ pathOn line ∨ (pathOn line).head? ≠ some '~') → BlanksApart homes b line w

theorem isBlank_of_isLineBlank {c : Char} (h : IsLineBlank c) : isBlank c = true := by
  rcases h with rfl | rfl <;> rfl

theorem ofPathLine?_of_blank (h : ∀ c ∈ line, isBlank c = true) :
    ofPathLine? homes root allow line = ofLine? root allow line :=
  if_pos (List.isEmpty_iff.mpr (strip_eq_nil_iff.mpr h))

/-- Blanks behind a line stand behind its path. -/
theorem pathOn_append (hne : line ≠ []) (w : Text) :
    pathOn (line ++ w) = pathOn line ++ w ∧ markOn (line ++ w) = markOn line := by
  obtain ⟨c, rest, rfl⟩ := List.exists_cons_of_ne_nil hne
  rw [pathOn, pathOn, markOn, markOn]
  by_cases hc : c = '!' <;> simp [hc]

/-- Blanks behind the pattern of a path are dropped as those behind the line are. -/
theorem bearsBlanks_pattern (hline : BearsBlanks line) {s : Text} (hs : s.getLast? = some '/') :
    BearsBlanks (markOn line ++ (s ++ Path.name (pathOn line))) := by
  have hsne : s ≠ [] := by
    rintro rfl
    cases hs
  have hlast : (markOn line ++ s).getLast? = some '/' := by
    rw [List.getLast?_append_of_ne_nil _ hsne, hs]
  rw [← List.append_assoc]
  by_cases hname : Path.name (pathOn line) = []
  · rw [hname, List.append_nil]
    exact bearsBlanks_of_slash hlast
  · obtain ⟨d, hd, hdlast⟩ : ∃ d, line = d ++ Path.name (pathOn line) ∧ d.getLast? ≠ some '\\' := by
      have hparts := markOn_append_pathOn line
      rcases eq_name_or_exists_append (pathOn line) with ⟨heq, -⟩ | ⟨-, d, heq⟩
      · refine ⟨markOn line, by rw [heq, hparts], ?_⟩
        rw [markOn]
        split <;> simp
      · refine ⟨markOn line ++ (d ++ ['/']), ?_, by rw [← List.append_assoc]; simp⟩
        conv_lhs => rw [← hparts, heq]
        simp
    rw [hd] at hline
    exact hline.of_append hname hdlast (by rw [hlast]; decide)

/-- **Blanks behind a line change nothing of what its rule matches.**  In an ignore file this is
so for every line that ends neither in a line end nor in a backslash without a partner; in a list
of paths, for those of them where the blanks stand apart from what the line means. -/
theorem trailing_blanks_alike (homes : Homes) (hb : b.IsNormal) (allow : Bool)
    (hline : BearsBlanks line) (hw : ∀ c ∈ w, IsLineBlank c) :
    Option.Rel Alike (ofLine? b.dirText allow (line ++ w)) (ofLine? b.dirText allow line) ∧
    (BlanksApart homes b line w →
      Option.Rel Alike (ofPathLine? homes b.dirText allow (line ++ w))
        (ofPathLine? homes b.dirText allow line)) := by
  have hplain : Option.Rel Alike (ofLine? b.dirText allow (line ++ w))
      (ofLine? b.dirText allow line) := ofLine?_alike (hline.stripLineEnd_append hw)
  refine ⟨hplain, fun hapart => ?_⟩
  by_cases hblank : ∀ c ∈ line, isBlank c = true
  · have hblank' : ∀ c ∈ line ++ w, isBlank c = true := List.forall_mem_append.mpr
      ⟨hblank, fun c hc => isBlank_of_isLineBlank (hw c hc)⟩
    rwa [ofPathLine?_of_blank hblank, ofPathLine?_of_blank hblank']
  obtain ⟨a, ha, hablank⟩ : ∃ c ∈ line, isBlank c = false := by simpa using hblank
  have hsome : ∃ c ∈ line, isBlank c = false := ⟨a, ha, hablank⟩
  have hsome' : ∃ c ∈ line ++ w, isBlank c = false :=
    ⟨a, List.mem_append_left w ha, hablank⟩
  obtain ⟨hpath, hmark⟩ := pathOn_append (List.ne_nil_of_mem ha) w
  have hroot : Path.slashed b.dirText = b.dirText := Path.slashed_of_endsIn hb.endsIn_dirText
  by_cases hglob : (pathOn line).head? = some '*'
  · -- a pattern is taken as it stands
    have hglob' : (pathOn (line ++ w)).head? = some '*' := by
      rw [hpath, List.head?_append, hglob]
      rfl
    rw [ofPathLine?_of_some hsome (if_pos hglob), ofPathLine?_of_some hsome' (if_pos hglob'),
      markOn_append_pathOn, markOn_append_pathOn]
    exact hplain
  · cases hapart with
    | blank h => exact absurd h hblank
    | glob h => exact absurd h hglob
    | outside h h' =>
      rw [ofPathLine?_of_none hsome (by rw [hroot, h]),
        ofPathLine?_of_none hsome' (by rw [hroot, hpath, h'])]
      exact .some (alike_unmatchable _ _)
    | below hcs htarget hhere habove hhome =>
      obtain ⟨s, hs, hpattern, hpattern'⟩ :=
        patternOfPath_append_blanks hb hglob hhome hhere habove hcs htarget hw
      rw [ofPathLine?_of_some hsome (by rw [hroot, hpattern]),
        ofPathLine?_of_some hsome' (by rw [hroot, hpath, hpattern']), hmark, ← List.append_assoc]
      exact ofLine?_alike ((bearsBlanks_pattern hline hs).stripLineEnd_append hw)

/-- The line `!a/./b\ `, which ends in an escaped blank, and more blanks behind it. -/
theorem trailing_blanks_alike_of_escaped :
    Option.Rel Alike (ofLine? "/r/".toList true ("!a/./b\\ ".toList ++ "\t ".toList))
        (ofLine? "/r/".toList true "!a/./b\\ ".toList) ∧
      Option.Rel Alike
        (ofPathLine? noHomes "/r/".toList true ("!a/./b\\ ".toList ++ "\t ".toList))
        (ofPathLine? noHomes "/r/".toList true "!a/./b\\ ".toList) := by
  have hb : (⟨.slash, ["r".toList]⟩ : Pathname).IsNormal := ⟨by decide, by decide⟩
  have hline : BearsBlanks "!a/./b\\ ".toList := ⟨by decide, by decide, by decide⟩
  have hbelow : BlanksApart noHomes ⟨.slash, ["r".toList]⟩ "!a/./b\\ ".toList "\t ".toList :=
    @BlanksApart.below _ _ _ _ ["a".toList, "b\\ ".toList] (by decide) (by decide +kernel)
      (by decide) (by decide) (.inr (by decide))
  obtain ⟨h, hpath⟩ :=
    trailing_blanks_alike noHomes hb true hline (w := "\t ".toList) (by simp [IsLineBlank])
  exact ⟨h, hpath hbelow⟩

/-- Rules that match alike, or both not there, say the same of a candidate. -/
theorem any_appliesTo_of_alike {x y : Option Rule} (h : Option.Rel Alike x y) (c : Candidate) :
    x.any (·.appliesTo c) = y.any (·.appliesTo c) := by
  cases h with
  | none => rfl
  | some h => exact (h c).1

/-- The line `.` in a list of paths is the directory itself; with a blank behind it, it is the
path `. ` of that directory, whose blank is then stripped from a pattern that nothing matches. -/
theorem blank_behind_dot_changes :
    BearsBlanks ".".toList ∧ (∀ c ∈ " ".toList, IsLineBlank c) ∧
      ¬ Option.Rel Alike (ofPathLine? noHomes "/r/".toList true (".".toList ++ " ".toList))
        (ofPathLine? noHomes "/r/".toList true ".".toList) := by
  refine ⟨⟨by decide, by decide, by decide⟩, by simp [IsLineBlank], fun h => ?_⟩
  exact absurd (any_appliesTo_of_alike h ⟨"/r/a".toList, false, none⟩) (by decide +kernel)

end Rule
end PathFilter
