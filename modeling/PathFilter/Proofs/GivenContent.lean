import PathFilter.Filter.Basic
import PathFilter.Proofs.FileText
import PathFilter.Proofs.PolicyLocality

/-! # Content that is given and content that is read

A question may give the text of a file.  Its first line is found differently then: the text is cut
at its first line feed, and carriage returns are taken from the end, while of a file that is read
the line ends are written as line feeds, and no more than a certain length is looked at.  **Both
find the same line**, if carriage returns stand before line feeds only and the line is not too long
(`Text.firstLine_unifyLineEnds`).

And a file is not read where its first line cannot matter: where no list has a rule for an
interpreter, and for directories and names with a dot.  **What is decided there does not depend on
the first line** (`Policy.allows_eq_of_not_wantsFirstLine`).

So a question is answered in the same way whether the text of the file is given or not, and loads
the same ignore files (`Filter.ask_given_content`).
-/

namespace PathFilter
open PathFilter.Path

/-! ## First lines -/

namespace Text

/-- Every carriage return stands right before a line feed. -/
def ReturnsPaired : Text → Prop
  | [] => True
  | c :: rest => (c = '\r' → rest.head? = some '\n') ∧ ReturnsPaired rest

instance decidableReturnsPaired : (t : Text) → Decidable t.ReturnsPaired
  | [] => .isTrue trivial
  | _ :: rest =>
    have := decidableReturnsPaired rest
    inferInstanceAs (Decidable (_ ∧ _))

/-- What does not begin with both characters of a line end does not begin with a carriage return. -/
theorem ReturnsPaired.ne_return {c : Char} {rest : Text} (ht : ReturnsPaired (c :: rest))
    (hnot : ∀ rest', c = '\r' → rest = '\n' :: rest' → False) : c ≠ '\r' := by
  intro hc
  obtain ⟨rest', rfl⟩ := List.head?_eq_some_iff.mp (ht.1 hc)
  exact hnot rest' hc rfl

end Text

namespace Filter

theorem firstLineOf_cons {c : Char} (hreturn : c ≠ '\r') (hfeed : c ≠ '\n') (t : Text) :
    firstLineOf (c :: t) = c :: firstLineOf t := by
  rw [firstLineOf, firstLineOf, Text.beforeFirst, List.takeWhile_cons_of_pos (by simpa using hfeed)]
  exact Text.dropTrailing_append_cons (by simpa using hreturn) [] _

/-- What precedes the first line end is found before line ends are written as line feeds. -/
theorem beforeFirst_unifyLineEnds {t : Text} (ht : t.ReturnsPaired) :
    (Text.unifyLineEnds t).beforeFirst '\n' = firstLineOf t := by
  fun_induction Text.unifyLineEnds t with
  | case1 => rfl
  | case2 rest => rfl
  | case3 c rest hnot ih =>
    have hreturn := ht.ne_return hnot
    rw [if_neg hreturn]
    by_cases hfeed : c = '\n'
    · subst hfeed
      rfl
    · rw [firstLineOf_cons hreturn hfeed, ← ih ht.2, Text.beforeFirst, Text.beforeFirst,
        List.takeWhile_cons_of_pos (by simpa using hfeed)]

/-- **The first line of a text that is given is that of the text as it is read**, as far as that is
read. -/
theorem firstLine_unifyLineEnds {t : Text} (ht : t.ReturnsPaired)
    (hlength : (firstLineOf t).length ≤ Text.firstLineLimit) :
    (Text.unifyLineEnds t).firstLine = firstLineOf t := by
  rw [Text.firstLine, Text.beforeFirst, ← List.take_takeWhile]
  have hline : (Text.unifyLineEnds t).takeWhile (· ≠ '\n') = firstLineOf t :=
    beforeFirst_unifyLineEnds ht
  rw [hline, List.take_of_length_le hlength]

end Filter

/-- The first line of a file, as it is read. -/
theorem Host.firstLine_of_read {h : Host} {path : Text} {bytes : List UInt8}
    (hread : h.files.read (h.fromCwd path) = .ok bytes) :
    h.firstLine path = .ok (some (Text.unifyLineEnds (Text.Utf8.decode bytes)).firstLine) := by
  rw [firstLine, readOr, readText, hread]
  rfl

/-! ## Where a first line matters -/

/-- A dot in the last name of a path stands in the last name of any path that it ends. -/
theorem Path.mem_name_append {c : Char} {path : Text} (hc : c ∈ name path) (above : Text) :
    c ∈ name (above ++ path) := by
  rw [name, Text.afterLast, List.mem_reverse] at hc ⊢
  rw [List.reverse_append, List.takeWhile_append]
  split
  · exact List.mem_append_left _ ((List.takeWhile_prefix _).subset hc)
  · exact hc

namespace Candidate

/-- Of what cannot be a script, no first line counts. -/
theorem content_eq_none {above path : Text} {isDir : Bool}
    (hscript : mayBeScript isDir (name path) = false) (line : Option Text) :
    Candidate.content ⟨above ++ path, isDir, line⟩ = none := by
  have hnot : mayBeScript isDir (name (above ++ path)) = false := by
    rw [mayBeScript, Bool.and_eq_false_iff, Bool.not_eq_false', Bool.not_eq_false'] at hscript ⊢
    refine hscript.imp_right fun hdot => ?_
    exact List.contains_iff_mem.mpr (mem_name_append (List.contains_iff_mem.mp hdot) above)
  rw [content, hnot, if_neg Bool.false_ne_true]

end Candidate

/-- Rules look at that of the first line of a candidate which counts. -/
theorem Rule.appliesTo_eq_of_content {path : Text} {isDir : Bool} {s t : Option Text}
    (hcontent : Candidate.content ⟨path, isDir, s⟩ = Candidate.content ⟨path, isDir, t⟩)
    (r : Rule) : r.appliesTo ⟨path, isDir, s⟩ = r.appliesTo ⟨path, isDir, t⟩ := by
  cases r with
  | path r => rfl
  | interpreter r =>
    rw [appliesTo, appliesTo, hcontent]
    rfl
  | unmatchable line negated => rfl

namespace Policy

theorem allowsAlone_eq_of_content {path : Text} {isDir : Bool} {s t : Option Text}
    (hcontent : Candidate.content ⟨path, isDir, s⟩ = Candidate.content ⟨path, isDir, t⟩)
    (p : Policy) : p.allowsAlone ⟨path, isDir, s⟩ = p.allowsAlone ⟨path, isDir, t⟩ :=
  Precedence.allows_congr _ (List.forall₂_same.mpr fun _ _ =>
    ⟨rfl, RuleList.verdict_eq_of_appliesTo fun r _ => r.appliesTo_eq_of_content hcontent⟩)

/-- **Where no first line is wanted, none matters.** -/
theorem allows_eq_of_not_wantsFirstLine {p : Policy} {path : Text} {isDir : Bool}
    (hwants : p.wantsFirstLine isDir (name path) = false) (line : Option Text) :
    p.allows path isDir line = p.allows path isDir none := by
  have halone : p.allowsAlone (p.candidate path isDir line) =
      p.allowsAlone (p.candidate path isDir none) := by
    rw [wantsFirstLine, Bool.and_eq_false_iff] at hwants
    rcases hwants with hscript | hreads
    · refine p.allowsAlone_eq_of_content ?_
      rw [Candidate.content_eq_none hscript, Candidate.content_eq_none hscript]
    · exact allowsAlone_eq_of_not_readsFirstLine hreads _ _ _ _
  rw [allows, allows, halone]

end Policy

/-! ## Questions -/

namespace Filter
variable {h : Host} {f : Filter}

/-- What is decided about a file with its text is what is decided when it is read. -/
theorem decideAt_given_content {relative : Text} {bytes : List UInt8}
    (hread : h.files.read (h.fromCwd (f.root ++ relative)) = .ok bytes)
    (hpaired : (Text.Utf8.decode bytes).ReturnsPaired)
    (hlength : (firstLineOf (Text.Utf8.decode bytes)).length ≤ Text.firstLineLimit)
    (isDir : Bool) (q : Query) :
    f.decideAt h relative isDir { q with content := some (Text.Utf8.decode bytes) } =
      f.decideAt h relative isDir { q with content := none } := by
  have hline : h.firstLine (f.root ++ relative) =
      .ok (some (firstLineOf (Text.Utf8.decode bytes))) := by
    rw [Host.firstLine_of_read hread, firstLine_unifyLineEnds hpaired hlength]
  rcases hload : f.policy.loadAbove h relative with ⟨p, loaded⟩
  rw [decideAt, decideAt, hload]
  refine Prod.ext rfl ?_
  cases loaded with
  | error e => rfl
  | ok _ =>
    show Except.ok (p.allows relative isDir (some (firstLineOf (Text.Utf8.decode bytes)))) =
      (if p.wantsFirstLine isDir (name relative) then h.firstLine (f.root ++ relative)
        else .ok none) >>= fun line => .ok (p.allows relative isDir line)
    cases hwants : p.wantsFirstLine isDir (name relative) with
    | true =>
      rw [if_pos rfl, hline]
      rfl
    | false =>
      rw [if_neg Bool.false_ne_true, Policy.allows_eq_of_not_wantsFirstLine hwants]
      rfl

/-- **A file is judged alike whether its text is given or read**, and whether or not it is read
where its first line is not wanted.  The filter is any, with any ignore files loaded, and so is all
else that the question says; the path is that of a file below the root that can be read.  Its text
as it is given has carriage returns only before line feeds, and a first line that is not too long.
-/
theorem ask_given_content {q : Query} {relative : Text} {bytes : List UInt8}
    (hrelative : f.resolver.relative? h.homes q.path = .ok (some relative))
    (hread : h.files.read (h.fromCwd (f.root ++ relative)) = .ok bytes)
    (hpaired : (Text.Utf8.decode bytes).ReturnsPaired)
    (hlength : (firstLineOf (Text.Utf8.decode bytes)).length ≤ Text.firstLineLimit) :
    f.ask h { q with content := some (Text.Utf8.decode bytes) } =
        f.ask h { q with content := none } ∧
      ∀ (p : Policy) (isDir : Bool) (line : Option Text),
        p.wantsFirstLine isDir (name relative) = false →
          p.allows relative isDir line = p.allows relative isDir none := by
  refine ⟨?_, fun p isDir line hwants => Policy.allows_eq_of_not_wantsFirstLine hwants line⟩
  have hbelow : f.decideBelow h relative { q with content := some (Text.Utf8.decode bytes) } =
      f.decideBelow h relative { q with content := none } := by
    have hprobe :
        f.probe h (f.root ++ relative) { q with content := some (Text.Utf8.decode bytes) } =
          f.probe h (f.root ++ relative) { q with content := none } := rfl
    rw [decideBelow, decideBelow, hprobe]
    rcases f.probe h (f.root ++ relative) { q with content := none } with e | ⟨isDir, present⟩
    · rfl
    · simp only [decideAt_given_content hread hpaired hlength]
  rw [ask, ask]
  simp only [hrelative, hbelow]

/-- A root whose ignore file has a rule for an interpreter, with a script whose lines end in
carriage returns and line feeds. -/
def scriptHost : Host :=
  { files := .ofEntries
      [("/r/.gitignore".toList, { kind := .file (Text.Utf8.encode "#!:sh\n".toList) }),
       ("/r/run".toList, { kind := .file (Text.Utf8.encode "#!/bin/sh\r\nexit\r\n".toList) })]
    cwd := "/r".toList
    homes := ⟨none, []⟩
    configHome := none }

/-- The script is denied, whether its text is given or read. -/
theorem ask_given_content_of_scriptHost : ∃ f, create scriptHost {} = .ok f ∧
    (f.ask scriptHost { path := "run".toList }).2 = .ok false ∧
    f.ask scriptHost { path := "run".toList, content := some "#!/bin/sh\r\nexit\r\n".toList } =
      f.ask scriptHost { path := "run".toList } := by
  obtain ⟨f, hf, hfacts⟩ : ∃ f, create scriptHost {} = .ok f ∧
      decide ((f.ask scriptHost { path := "run".toList }).2 = .ok false ∧
        f.resolver.relative? scriptHost.homes "run".toList = .ok (some "run".toList) ∧
        scriptHost.files.read (scriptHost.fromCwd (f.root ++ "run".toList)) =
          .ok (Text.Utf8.encode "#!/bin/sh\r\nexit\r\n".toList)) = true :=
    exists_eq_ok_of_any (by decide +kernel)
  obtain ⟨hdenied, hrelative, hread⟩ := of_decide_eq_true hfacts
  have hgiven := (ask_given_content (q := { path := "run".toList }) hrelative hread
    (by decide +kernel) (by decide +kernel)).1
  rw [Text.Utf8.decode_encode] at hgiven
  exact ⟨f, hf, hdenied, hgiven⟩

end Filter
end PathFilter
