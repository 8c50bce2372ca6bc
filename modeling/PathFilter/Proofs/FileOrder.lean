import Mathlib.Data.Char
import Mathlib.Data.List.Lex
import PathFilter.Proofs.NameForms

/-! # The order in which files are found

Paths are compared component by component, and components by the code points of their characters.
This is not the order of the paths as texts: `a/x` comes before `a-b`, since `a` does, although a
slash is a greater character than a dash.

* The names in a directory are listed in increasing order (`Text.pairwise_sort`).
* An iteration has an agenda, the paths that it has still to visit, in order (`Walk.agenda`).
  **A path comes, with all that may be below it, before everything that stands behind it on the
  agenda** (`Path.Precedes`).  A turn strikes out the first path or puts the entries of this
  directory in its place, so what has been found, followed by what is on the agenda, stays in order
  (`Walk.Course.pairwise_precedes`).
* **So each iteration of a filter in use finds files in increasing order, none of them twice, and
  the same ones in full and by their names** (`Filter.found_ascending`; for the two forms see
  `Session.run_inFull`).
-/

namespace PathFilter

/-! ## Lists of names -/

namespace Text

/-- The order of texts is the lexicographic one. -/
theorem le_iff {s t : Text} : le s t = true ↔ s = t ∨ s < t := by
  induction s generalizing t with
  | nil =>
    cases t with
    | nil => exact iff_of_true rfl (.inl rfl)
    | cons b t => exact iff_of_true rfl (.inr (List.nil_lt_cons b t))
  | cons a s ih =>
    cases t with
    | nil => exact iff_of_false Bool.false_ne_true (by simp)
    | cons b t =>
      rw [le, Bool.or_eq_true, Bool.and_eq_true, decide_eq_true_eq, decide_eq_true_eq, ih,
        List.cons_lt_cons_iff, List.cons.injEq, and_or_left]
      exact or_left_comm

theorem lt_of_le_eq_false {s t : Text} (h : le s t = false) : t < s := by
  induction s generalizing t with
  | nil => cases h
  | cons a s ih =>
    cases t with
    | nil => exact List.nil_lt_cons a s
    | cons b t =>
      rw [le, Bool.or_eq_false_iff, decide_eq_false_iff_not, Bool.and_eq_false_iff,
        decide_eq_false_iff_not] at h
      rw [List.cons_lt_cons_iff]
      rcases lt_trichotomy a b with hlt | rfl | hgt
      · exact absurd hlt h.1
      · exact .inr ⟨rfl, ih (h.2.resolve_left (not_not_intro rfl))⟩
      · exact .inl hgt

theorem pairwise_insertSorted {ts : List Text} (h : ts.Pairwise (· < ·)) (t : Text) :
    (insertSorted t ts).Pairwise (· < ·) := by
  induction ts with
  | nil => exact List.pairwise_singleton _ t
  | cons s ts ih =>
    obtain ⟨hs, hts⟩ := List.pairwise_cons.mp h
    rw [insertSorted]
    split
    · exact h
    rename_i hne
    split
    · rename_i hle
      have hlt : t < s := (le_iff.mp hle).resolve_left hne
      exact List.pairwise_cons.mpr
        ⟨List.forall_mem_cons.mpr ⟨hlt, fun u hu => List.lt_trans hlt (hs u hu)⟩, h⟩
    · rename_i hle
      have hlt : s < t := lt_of_le_eq_false (by simpa using hle)
      refine List.pairwise_cons.mpr ⟨fun u hu => ?_, ih hts⟩
      rcases mem_insertSorted_iff.mp hu with rfl | hu
      · exact hlt
      · exact hs u hu

/-- **Sorting texts puts them in increasing order.** -/
theorem pairwise_sort (ts : List Text) : (sort ts).Pairwise (· < ·) := by
  induction ts with
  | nil => exact .nil
  | cons t ts ih => exact pairwise_insertSorted ih t

end Text

/-! ## Paths and what is below them -/

namespace Path
variable {x y z : List Text} {names : List Text}

/-- A path and all that is below it come before another path. -/
def Precedes (x y : List Text) : Prop := ∀ below, x ++ below < y

/-- Paths are in increasing order, compared component by component. -/
def Ascending (paths : List Text) : Prop := (paths.map (Text.splitOn '/')).Pairwise (· < ·)

/-- In increasing order no path stands twice. -/
theorem Ascending.nodup {paths : List Text} (h : Ascending paths) : paths.Nodup := by
  refine List.Nodup.of_map (Text.splitOn '/') (h.imp fun {x y} hlt heq => ?_)
  exact List.lt_irrefl y (heq ▸ hlt)

theorem Precedes.lt (h : Precedes x y) : x < y := by
  have hlt := h []
  rwa [List.append_nil] at hlt

theorem Precedes.append_left (h : Precedes x y) (below : List Text) : Precedes (x ++ below) y := by
  intro below'
  rw [List.append_assoc]
  exact h _

theorem Precedes.append_right (h : Precedes x y) (below : List Text) : Precedes x (y ++ below) :=
  fun below' => List.Lex.append_right (· < ·) below (h below')

/-- The entries of a directory come one after the other. -/
theorem pairwise_precedes_entries (x : List Text) (h : names.Pairwise (· < ·)) :
    (names.map (x ++ [·])).Pairwise Precedes := by
  refine List.pairwise_map.mpr (h.imp fun {m n} hlt below => ?_)
  rw [List.append_assoc]
  exact List.append_left_lt (List.cons_lt_cons_iff.mpr (.inl hlt))

/-- **The entries of a directory come where the directory did.** -/
theorem Precedes.pairwise_expand {before behind : List (List Text)}
    (h : (before ++ x :: behind).Pairwise Precedes) (hnames : names.Pairwise (· < ·)) :
    (before ++ (names.map (x ++ [·]) ++ behind)).Pairwise Precedes := by
  obtain ⟨hbefore, hx, hacross⟩ := List.pairwise_append.mp h
  obtain ⟨hfirst, hbehind⟩ := List.pairwise_cons.mp hx
  refine List.pairwise_append.mpr ⟨hbefore, List.pairwise_append.mpr
    ⟨pairwise_precedes_entries x hnames, hbehind, ?_⟩, fun y hy => List.forall_mem_append.mpr ?_⟩
  · intro e he y hy
    obtain ⟨n, -, rfl⟩ := List.mem_map.mp he
    exact (hfirst y hy).append_left [n]
  · refine ⟨fun e he => ?_, fun z hz => hacross y hy z (List.mem_cons_of_mem x hz)⟩
    obtain ⟨n, -, rfl⟩ := List.mem_map.mp he
    exact (hacross y hy x List.mem_cons_self).append_right [n]

end Path

/-! ## The agenda of an iteration -/

namespace Walk
open PathFilter.Path
variable {h : Host} {c : Config} {root : Text} {p p' : Policy} {w : Walk} {t : Turn} {f g : Frame}
  {frames outer : List Frame} {n : Nat} {found names : List Text} {wanted : Option Nat}

/-- The paths of the names that are pending in frames, by their components. -/
def pendingIn (frames : List Frame) : List (List Text) :=
  frames.flatMap fun f => f.pending.map fun name => Text.splitOn '/' (f.relative ++ name)

/-- The paths that an iteration has still to visit, relative to the root; at first this is the root
itself. -/
def agenda : Walk → List (List Text)
  | .unstarted => [[]]
  | .inside frames => pendingIn frames

theorem pendingIn_cons (f : Frame) (outer : List Frame) : pendingIn (f :: outer) =
    (f.pending.map fun name => Text.splitOn '/' (f.relative ++ name)) ++ pendingIn outer :=
  List.flatMap_cons

/-- A directory that is opened has its entries on the agenda, in increasing order. -/
theorem pendingIn_of_openDirectory (hfs : h.files.Proper) (outer : List Frame)
    {directory relative : Text} {above : List Nat} {x : List Text}
    (hrelative : ∀ name, '/' ∉ name → Text.splitOn '/' (relative ++ name) = x ++ [name])
    (hopen : openDirectory h c directory relative above p = .ok (some (g, p'))) :
    ∃ names : List Text, names.Pairwise (· < ·) ∧
      pendingIn (g :: outer) = names.map (x ++ [·]) ++ pendingIn outer := by
  obtain ⟨inodes, names, hcontents, -, rfl⟩ := exists_of_openDirectory hopen
  obtain ⟨l, rfl⟩ := FileSystem.exists_childrenAt_of_list (contents_eq_ok_some_iff.mp hcontents).2
  refine ⟨h.files.childrenAt l, Text.pairwise_sort _, ?_⟩
  rw [pendingIn_cons]
  refine congrArg (· ++ pendingIn outer) (List.map_congr_left fun name hname => ?_)
  exact hrelative name (hfs.isProper_of_mem_childrenAt hname).1.2

/-- A turn that finds a file visits the first name that is pending. -/
theorem exists_visit_of_found {path : Text} (hturn : turn h c root p w = .ok (some t))
    (hpath : t.found = some path) : ∃ f outer name rest, w = .inside (f :: outer) ∧
      f.pending = name :: rest ∧ visit h c p f name = .ok (.file path) := by
  have hinto : ∀ {directory relative above outer},
      turnInto h c p directory relative above outer ≠ .ok t := by
    intro directory relative above outer hinto
    rcases turnInto_eq_ok hinto with rfl | ⟨g, p', -, rfl⟩ <;> cases hpath
  match w with
  | .unstarted =>
    obtain ⟨t', ht', heq⟩ := map_eq_ok_iff.mp hturn
    cases heq
    exact absurd ht' hinto
  | .inside [] => cases hturn
  | .inside (f :: outer) =>
    rw [turn] at hturn
    split at hturn
    · cases hturn
      cases hpath
    · rename_i name rest hpending
      obtain ⟨v, hv, hturn⟩ := bind_eq_ok_iff.mp hturn
      obtain ⟨t', hat, heq⟩ := map_eq_ok_iff.mp hturn
      cases heq
      cases v with
      | pass =>
        cases hat
        cases hpath
      | file path' =>
        cases hat
        cases hpath
        exact ⟨f, outer, name, rest, rfl, hpending, hv⟩
      | directory =>
        rw [turnAt] at hat
        exact absurd hat hinto

/-- **A turn leaves what has been found and what is on the agenda in order.** -/
theorem pairwise_precedes_turn (hfs : h.files.Proper) (hc : c.relative = true)
    (hw : (found.map (Text.splitOn '/') ++ agenda w).Pairwise Precedes)
    (hturn : turn h c root p w = .ok (some t)) :
    ((found ++ t.found.toList).map (Text.splitOn '/') ++ agenda t.walk).Pairwise Precedes := by
  cases turns_of_turn hturn with
  | begin hinto =>
    rcases turnInto_eq_ok hinto with rfl | ⟨g, p', hopen, rfl⟩
    · rw [Option.toList_none, List.append_nil]
      exact hw.sublist (List.sublist_append_left _ [[]] |>.trans (by simp [agenda, pendingIn]))
    · have hroot : ∀ name : Text, '/' ∉ name → Text.splitOn '/' ([] ++ name) = [] ++ [name] :=
        fun _ hname => Text.splitOn_of_not_mem hname
      obtain ⟨names, hnames, hpending⟩ := pendingIn_of_openDirectory hfs [] hroot hopen
      rw [Option.toList_none, List.append_nil, agenda, hpending]
      exact Precedes.pairwise_expand hw hnames
  | @leave f outer hpending =>
    rw [agenda, pendingIn_cons, hpending] at hw
    rwa [Option.toList_none, List.append_nil]
  | @visit f outer name rest found' hpending =>
    rw [agenda, pendingIn_cons, hpending, List.map_cons, List.cons_append] at hw
    show (_ ++ pendingIn ({ f with pending := rest } :: outer)).Pairwise _
    rw [pendingIn_cons]
    cases found' with
    | none =>
      rw [Option.toList_none, List.append_nil]
      exact hw.sublist (List.Sublist.append_left (List.sublist_cons_self _ _) _)
    | some path =>
      -- the file that is found is the first path of the agenda
      obtain ⟨f', outer', name', rest', heq, hpending', hv⟩ := exists_visit_of_found hturn rfl
      cases heq
      cases hpending.symm.trans hpending'
      rw [eq_of_visit_file hv, if_pos hc, Option.toList_some, List.map_append,
        List.append_assoc]
      exact hw
  | @enter f g outer name rest p' hpending hv hopen =>
    rw [agenda, pendingIn_cons, hpending, List.map_cons, List.cons_append] at hw
    have hbelow : ∀ entry : Text, '/' ∉ entry →
        Text.splitOn '/' (f.relative ++ name ++ ['/'] ++ entry) =
          Text.splitOn '/' (f.relative ++ name) ++ [entry] := by
      intro entry hentry
      rw [List.append_assoc, List.singleton_append, Text.splitOn_append_cons,
        Text.splitOn_of_not_mem hentry]
    obtain ⟨names, hnames, hentries⟩ :=
      pendingIn_of_openDirectory hfs ({ f with pending := rest } :: outer) hbelow hopen
    rw [Option.toList_none, List.append_nil, agenda, hentries, pendingIn_cons]
    exact Precedes.pairwise_expand hw hnames

namespace Course

/-- **What a course has found, followed by what is on its agenda, is in order**, each path with all
that may be below it before the next one. -/
theorem pairwise_precedes (hfs : h.files.Proper) (hc : c.relative = true)
    (hcourse : Course h c root n w found) :
    (found.map (Text.splitOn '/') ++ agenda w).Pairwise Precedes := by
  induction hcourse with
  | start => exact List.pairwise_singleton _ _
  | turn _ hturn ih => exact pairwise_precedes_turn hfs hc ih hturn

/-- A course finds files in increasing order. -/
theorem ascending (hfs : h.files.Proper) (hc : c.relative = true)
    (hcourse : Course h c root n w found) : Ascending found := by
  have hfound := (List.pairwise_append.mp (hcourse.pairwise_precedes hfs hc)).1
  exact hfound.imp Precedes.lt

end Course
end Walk

/-! ## Filters in use -/

section
open PathFilter.Path

/-- An iteration finds files in increasing order. -/
theorem Iteration.OnCourse.ascending {h : Host} {c : Config} {root : Text} {i : Iteration}
    (hfs : h.files.Proper) (hc : c.relative = true) (hi : i.OnCourse h c root) :
    Ascending i.found := by
  obtain ⟨n, w, hcourse⟩ := hi.exists_course
  exact hcourse.ascending hfs hc

namespace Filter
variable {h h₀ : Host} {plan : FilterPlan} {f : Filter}

/-- All files are found in increasing order, whatever has been loaded. -/
theorem ascending_enumerate (hfs : h.files.Proper) (hb : f.resolver.base.IsNormal)
    (hrelative : f.config.relative = true) : Ascending (f.enumerate h).2.found := by
  have hstart : ({} : Iteration).OnCourse h f.config f.root :=
    ⟨fun _ => ⟨0, .start⟩, fun e he => absurd he.symm (Option.some_ne_none e)⟩
  exact (hstart.advance hfs hb none).1.ascending hfs hrelative

/-- **Files are found in increasing order, and none is found twice.**  The filter is one that has
been created, on any host; it is used on a host the files of which do not change, and of which it is
only asked that no name among them is empty, `.` or `..`.

Made to give files by their names or to give them in full, it is the same filter otherwise.  With
anything loaded at first, do the same with the two, asking and iterating in any order.  Each
iteration finds names in increasing order, component by component; the other filter has given the
same answers, and its iterations have found the root followed by these names.  All of this holds as
well of a list of all files that is made at the end. -/
theorem found_ascending (hcwd : h₀.cwd.head? = some '/') (hf : create h₀ plan = .ok f)
    (hfs : h.files.Proper) (p : Policy) (actions : List Action) :
    (∀ relative, create h₀ (plan.giving relative) = .ok (f.giving relative)) ∧
    let named := Session.run h ⟨{ f.giving true with policy := p }, [], []⟩ actions
    let full := Session.run h ⟨{ f.giving false with policy := p }, [], []⟩ actions
    (∀ i ∈ named.iterations, Ascending i.found ∧ i.found.Nodup) ∧
    (∀ i ∈ full.iterations, i.found.Nodup) ∧
    full.answers = named.answers ∧
    full.iterations = named.iterations.map (·.inFull f.root) ∧
    let all := (named.filter.enumerate h).2
    Ascending all.found ∧ all.found.Nodup ∧ (full.filter.enumerate h).2 = all.inFull f.root ∧
      (full.filter.enumerate h).2.found.Nodup := by
  have hb := (fresh_of_create hcwd hf).normal
  refine ⟨create_giving hf, ?_⟩
  intro named full
  have hfull : full = named.inFull :=
    Session.run_inFull (s := ⟨{ f.giving true with policy := p }, [], []⟩) hfs hb rfl
      (List.forall_mem_nil _) actions
  have hfound : ∀ i ∈ named.iterations, Ascending i.found := fun i hi =>
    (Session.onCourse_run (s := ⟨{ f.giving true with policy := p }, [], []⟩) hfs hb
      (List.forall_mem_nil _) actions i hi).ascending hfs rfl
  have hfilter : named.filter = { f.giving true with policy := named.filter.policy } :=
    Session.run_filter_eq (s := ⟨{ f.giving true with policy := p }, [], []⟩) actions
  have hroot : named.filter.root = f.root := by
    rw [hfilter]
    rfl
  have hrelative : named.filter.config.relative = true :=
    congrArg (fun g : Filter => g.config.relative) hfilter
  have hall : Ascending (named.filter.enumerate h).2.found := by
    rw [hfilter]
    exact ascending_enumerate hfs hb rfl
  have hnodup : ∀ {names}, Ascending names → ∀ above : Text, (names.map (above ++ ·)).Nodup :=
    fun hnames above => hnames.nodup.map (List.append_right_injective above)
  have hinFull : (full.filter.enumerate h).2 = (named.filter.enumerate h).2.inFull f.root := by
    rw [hfull, ← hroot]
    exact enumerate_inFull hrelative
  refine ⟨fun i hi => ⟨hfound i hi, (hfound i hi).nodup⟩, ?_, ?_, ?_, hall, hall.nodup, hinFull,
    ?_⟩
  · rw [hfull]
    intro i hi
    obtain ⟨j, hj, rfl⟩ := List.mem_map.mp hi
    exact hnodup (hfound j hj) _
  · rw [hfull]
    rfl
  · rw [hfull, ← hroot]
    rfl
  · rw [hinFull]
    exact hnodup hall _

/-- A directory and a file the name of which goes on from the directory's, with a character that is
less than a slash. -/
def dashHost : Host :=
  { files := .ofEntries
      [("/r/a-b".toList, { kind := .file [] }), ("/r/a/x".toList, { kind := .file [] }),
       ("/r/a/y".toList, { kind := .file [] })]
    cwd := "/r".toList
    homes := ⟨none, []⟩
    configHome := none }

/-- Two files are found, and then the third; as texts, `a-b` would come before `a/x`. -/
theorem found_ascending_of_dashHost :
    ∃ f, create dashHost {} = .ok f ∧
      let actions := [.start, .advance 0 (some 2), .start, .advance 0 none]
      let named := Session.run dashHost ⟨{ f.giving true with policy := f.policy }, [], []⟩ actions
      let full := Session.run dashHost ⟨{ f.giving false with policy := f.policy }, [], []⟩ actions
      named.iterations.map (·.found) = [["a/x".toList, "a/y".toList, "a-b".toList], []] ∧
      "a-b".toList < "a/x".toList ∧ (∀ i ∈ named.iterations, Ascending i.found) ∧
      full.iterations.map (·.found) =
        [["/r/a/x".toList, "/r/a/y".toList, "/r/a-b".toList], []] := by
  obtain ⟨f, hf, hfacts⟩ :
      ∃ f, create dashHost {} = .ok f ∧
      decide (f.root = "/r/".toList ∧
        (Session.run dashHost ⟨{ f.giving true with policy := f.policy }, [], []⟩
          [.start, .advance 0 (some 2), .start, .advance 0 none]).iterations.map (·.found) =
            [["a/x".toList, "a/y".toList, "a-b".toList], []]) = true :=
    exists_eq_ok_of_any (by decide +kernel)
  obtain ⟨hroot, hfound⟩ := of_decide_eq_true hfacts
  obtain ⟨-, hnamed, -, -, hfull, -⟩ := found_ascending rfl hf
    (show dashHost.files.Proper by decide +kernel) f.policy
    [.start, .advance 0 (some 2), .start, .advance 0 none]
  refine ⟨f, hf, hfound, by decide, fun i hi => (hnamed i hi).1, ?_⟩
  have hprefixed := congrArg (List.map (List.map ("/r/".toList ++ ·))) hfound
  rw [hfull, hroot, List.map_map]
  rwa [List.map_map] at hprefixed

end Filter
end
end PathFilter
