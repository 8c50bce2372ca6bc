import Mathlib.Data.List.Forall2
import PathFilter.Proofs.GivenContent
import PathFilter.Proofs.TrailingBlanks

/-! # Patterns that are given and patterns in a file

The patterns of a source are given as a text, or stand in a file.  The two are cut into lines
differently: the line ends of a file are written as line feeds first, and a last line that is empty
does not count, while a text is cut at its line feeds only, so that a carriage return before one
stays at the end of the line.

If carriage returns stand before line feeds only, each given line is a line of the file with at most
one carriage return behind it (`Text.forall₂_isWithReturn`).  This is dropped before the line is
read, and an empty line holds no rule.  **So a text has the same rules as a file that holds it**,
but for the lines that they are written as (`Source.rules_given_alike_file`).
-/

namespace PathFilter

/-! ## Lines -/

namespace Text

/-- A line with or without a carriage return at its end, and the line without it. -/
def IsWithReturn (l l' : Text) : Prop :=
  (l = l' ∨ l = l' ++ ['\r']) ∧ ∀ c ∈ l', c ≠ '\r' ∧ c ≠ '\n'

theorem isWithReturn_cons {c : Char} (hreturn : c ≠ '\r') (hfeed : c ≠ '\n') {l l' : Text}
    (h : IsWithReturn l l') : IsWithReturn (c :: l) (c :: l') := by
  refine ⟨h.1.imp (congrArg (c :: ·)) (congrArg (c :: ·)), ?_⟩
  exact List.forall_mem_cons.mpr ⟨⟨hreturn, hfeed⟩, h.2⟩

/-- The lines of a text are the same before its line ends are written as line feeds, but for a
carriage return at the end of each. -/
theorem forall₂_isWithReturn {t : Text} (ht : t.ReturnsPaired) :
    List.Forall₂ IsWithReturn (splitOn '\n' t) (splitOn '\n' (unifyLineEnds t)) := by
  fun_induction unifyLineEnds t with
  | case1 => exact .cons ⟨.inl rfl, List.forall_mem_nil _⟩ .nil
  | case2 rest ih => exact .cons ⟨.inr rfl, List.forall_mem_nil _⟩ (ih ht.2.2)
  | case3 c rest hnot ih =>
    have hreturn := ht.ne_return hnot
    rw [if_neg hreturn, splitOn, splitOn]
    split
    · exact .cons ⟨.inl rfl, List.forall_mem_nil _⟩ (ih ht.2)
    · rename_i hfeed
      have hrest := ih ht.2
      obtain ⟨l, ls, hl⟩ := List.exists_cons_of_ne_nil (splitOn_ne_nil '\n' rest)
      obtain ⟨l', ls', hl'⟩ := List.exists_cons_of_ne_nil (splitOn_ne_nil '\n' (unifyLineEnds rest))
      rw [hl, hl'] at hrest ⊢
      obtain ⟨h, hs⟩ := List.forall₂_cons.mp hrest
      exact .cons (isWithReturn_cons hreturn hfeed h) hs

/-- Where an empty line holds nothing, a last line that is empty makes no difference. -/
theorem filterMap_dropFinalEmpty {α : Type} {f : Text → Option α} (hf : f [] = none)
    (ls : List Text) : (dropFinalEmpty ls).filterMap f = ls.filterMap f := by
  fun_induction dropFinalEmpty ls with
  | case1 => rfl
  | case2 => rw [List.filterMap_cons_none hf]
  | case3 l rest _ ih => rw [List.filterMap_cons, List.filterMap_cons, ih]

end Text

/-- A carriage return at the end of a line is dropped. -/
theorem Pattern.stripLineEnd_eq_of_isWithReturn {l l' : Text} (h : Text.IsWithReturn l l') :
    stripLineEnd l = stripLineEnd l' := by
  obtain ⟨rfl | rfl, hends⟩ := h
  · rfl
  · have hlast : ∀ c ∈ l'.getLast?, c ≠ '\r' ∧ c ≠ '\n' := fun c hc =>
      hends c (List.mem_of_getLast? hc)
    rw [stripLineEnd_of_getLast? (fun hn => (hlast _ hn).2 rfl) (fun hr => (hlast _ hr).1 rfl),
      stripLineEnd, List.reverse_concat]
    rfl

/-! ## Sources -/

namespace Source
variable {h : Host} {callerRoot root path t : Text} {required allow : Bool}

/-- The directory that the patterns of a source are relative to which gives it by a path. -/
def rootFrom (h : Host) (callerRoot root : Text) : Text := Path.slashed (pathFrom h callerRoot root)

theorem givenRoot_of_ne_nil (hroot : root ≠ []) (origin : Origin) (format : Setting) :
    givenRoot h callerRoot { origin, root, allow, format } =
      some (rootFrom h callerRoot root) := by
  obtain ⟨c, root, rfl⟩ := List.exists_cons_of_ne_nil hroot
  rfl

/-- The rules of a text are those on its lines. -/
theorem rules_ofTexts (hroot : root ≠ []) :
    rules h callerRoot { origin := .ofTexts [t], root, allow } =
      .ok ((Text.splitOn '\n' t).filterMap
        (Rule.ofLine? (rootFrom h callerRoot root) allow)) := by
  rw [rules, resolve, givenRoot_of_ne_nil hroot]
  show Except.ok ((([t] : List Text).flatMap (Text.splitOn '\n')).filterMap _) = _
  rw [List.flatMap_singleton]
  rfl

/-- The rules of a file that holds a text are those on the lines of the file. -/
theorem rules_file (hroot : root ≠ [])
    (hread : h.files.read (h.fromCwd (pathFrom h (rootFrom h callerRoot root) path)) =
      .ok (Text.Utf8.encode t))
    (hrequired : required = true →
      h.hasFile (pathFrom h (rootFrom h callerRoot root) path) = true) :
    rules h callerRoot { origin := .file path required, root, allow } =
      .ok ((Text.unifyLineEnds t).lines.filterMap
        (Rule.ofLine? (rootFrom h callerRoot root) allow)) := by
  have hpresent : ¬ (required && !h.hasFile (pathFrom h (rootFrom h callerRoot root) path)) := by
    cases required with
    | false => exact Bool.false_ne_true
    | true => simp [hrequired rfl]
  have hresolve : resolve h callerRoot { origin := .file path required, root, allow } =
      .ok ⟨.file (pathFrom h (rootFrom h callerRoot root) path) required,
        rootFrom h callerRoot root, allow, .gitignore⟩ := by
    rw [resolve, givenRoot_of_ne_nil hroot]
    exact if_neg hpresent
  refine bind_eq_ok_iff.mpr ⟨_, mapError_eq_ok_iff.mpr hresolve, mapError_eq_ok_iff.mpr ?_⟩
  exact map_eq_ok_iff.mpr ⟨_, Host.readLines_of_read hread, rfl⟩

/-- **A text has the same rules as a file that holds it.**  Carriage returns stand in it before line
feeds only, and the file is found where its path leads from the root that is given. -/
theorem rules_given_alike_file (hroot : root ≠ []) (ht : t.ReturnsPaired)
    (hread : h.files.read (h.fromCwd (pathFrom h (rootFrom h callerRoot root) path)) =
      .ok (Text.Utf8.encode t))
    (hrequired : required = true →
      h.hasFile (pathFrom h (rootFrom h callerRoot root) path) = true) :
    ∃ given read, rules h callerRoot { origin := .ofTexts [t], root, allow } = .ok given ∧
      rules h callerRoot { origin := .file path required, root, allow } = .ok read ∧
      List.Forall₂ (fun r r' => r.SameButLine r' ∧ r.negated = r'.negated ∧ r.Alike r')
        given read := by
  refine ⟨_, _, rules_ofTexts hroot, rules_file hroot hread hrequired, ?_⟩
  rw [Text.lines, Text.filterMap_dropFinalEmpty rfl]
  have hrules : List.Forall₂ Rule.SameButLine
      ((Text.splitOn '\n' t).filterMap (Rule.ofLine? (rootFrom h callerRoot root) allow))
      ((Text.splitOn '\n' (Text.unifyLineEnds t)).filterMap
        (Rule.ofLine? (rootFrom h callerRoot root) allow)) :=
    List.rel_filterMap
      (fun _ _ hl => Rule.ofLine?_sameButLine (Pattern.stripLineEnd_eq_of_isWithReturn hl))
      (Text.forall₂_isWithReturn ht)
  exact hrules.imp fun _ _ hr => ⟨hr, hr.negated_eq, hr.alike⟩

/-- Patterns with line ends of both kinds, and with a blank before one that a backslash escapes. -/
def sampleText : Text :=
  "# scripts\r\n*.rb\r\n\r\n!lib/ \r\n#!:ruby\na\\ \r\n//\r\n".toList

/-- The file `/r/p` holds the sample text. -/
def sampleHost : Host :=
  { files := .ofEntries [("/r/p".toList, { kind := .file (Text.Utf8.encode sampleText) })]
    cwd := "/".toList
    homes := ⟨none, []⟩
    configHome := none }

/-- The rules for `*.rb`, `!lib/`, the interpreter, the name that ends in a blank and a pattern of
slashes; all but one are written as other lines in the file. -/
theorem rules_given_alike_file_of_sample :
    ∃ given read, rules sampleHost "/w/".toList
        { origin := .ofTexts [sampleText], root := some "/r".toList, allow := true } = .ok given ∧
      rules sampleHost "/w/".toList
        { origin := .file "p".toList true, root := some "/r".toList, allow := true } = .ok read ∧
      given.map (·.line) = ["*.rb\r".toList, "!lib/ \r".toList, "#!:ruby".toList,
        "a\\ \r".toList, "//\r".toList] ∧
      read.map (·.line) = ["*.rb".toList, "!lib/ ".toList, "#!:ruby".toList, "a\\ ".toList,
        "//".toList] ∧
      List.Forall₂ Rule.SameButLine given read := by
  have hread : sampleHost.files.read (sampleHost.fromCwd (pathFrom sampleHost
      (rootFrom sampleHost "/w/".toList "/r".toList) "p".toList)) =
        .ok (Text.Utf8.encode sampleText) := by decide +kernel
  obtain ⟨given, read, hgiven, hread, hsame⟩ :=
    rules_given_alike_file (List.cons_ne_nil _ _) (by decide) hread (fun _ => by decide +kernel)
  obtain ⟨given', hgiven', hlines⟩ : ∃ given', rules sampleHost "/w/".toList
      { origin := .ofTexts [sampleText], root := some "/r".toList, allow := true } = .ok given' ∧
      decide (given'.map (·.line) = ["*.rb\r".toList, "!lib/ \r".toList, "#!:ruby".toList,
        "a\\ \r".toList, "//\r".toList]) = true := exists_eq_ok_of_any (by decide +kernel)
  obtain ⟨read', hread', hlines'⟩ : ∃ read', rules sampleHost "/w/".toList
      { origin := .file "p".toList true, root := some "/r".toList, allow := true } = .ok read' ∧
      decide (read'.map (·.line) = ["*.rb".toList, "!lib/ ".toList, "#!:ruby".toList,
        "a\\ ".toList, "//".toList]) = true := exists_eq_ok_of_any (by decide +kernel)
  cases hgiven.symm.trans hgiven'
  cases hread.symm.trans hread'
  exact ⟨given, read, hgiven, hread, of_decide_eq_true hlines, of_decide_eq_true hlines',
    hsame.imp fun _ _ h => h.1⟩

end Source
end PathFilter
