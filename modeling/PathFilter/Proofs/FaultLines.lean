import PathFilter.Proofs.Includes
import PathFilter.Proofs.Outlines

/-! # Lines that are at fault

A configuration file is malformed in the first line that cannot be read behind what the lines above
it leave (`FailsAt`).  The script of the file ends there, with the number of this line.  It is the
same whatever stands below (`FailsAt.ofLinesFrom_take_append`), and the lines above have no fault by
themselves (`FailsAt.fault_take`).

What a configuration file comes to is settled by its script and by the scripts of the files that it
includes (`ofFile_congr`).  A file may be read under several paths, by way of links, and again and
again where it includes itself; but as long as its script stays the same, its text does not matter
to any configuration file (`settings_eq_of_alikeButFile`).

**So an error is at the line that causes it** (`settings_error_at_line`): it stays the same for any
text that begins with the lines down to this one, and is gone where this line is.
-/

namespace PathFilter

/-! ## Files that are read on two hosts -/

namespace Host
variable {h h' : Host} {l : Location} {n m : Node} {path other : Text}

/-- The hosts are the same but for the text of the file that a path leads to, and but for an error
in opening it. -/
def AlikeButFile (path : Text) (h h' : Host) : Prop :=
  ∃ l n, h.files.node true (h.fromCwd path) = .ok (l, n) ∧ h.AlikeBut l h'

/-- Paths that lead to the same location are read alike. -/
theorem readLines_eq_of_node (hpath : h.files.node true (h.fromCwd path) = .ok (l, n))
    (hother : h.files.node true (h.fromCwd other) = .ok (l, m)) :
    h.readLines path = h.readLines other := by
  have hsame : h.files.get? l = some n := (FileSystem.node_eq_ok_iff.mp hpath).2
  rw [(FileSystem.node_eq_ok_iff.mp hother).2] at hsame
  cases hsame
  rw [readLines, readLines, readOr, readOr, readText, readText, FileSystem.read, FileSystem.read,
    hpath, hother]

/-- A path leads to the same location on hosts that are alike. -/
theorem AlikeBut.exists_node (ha : h.AlikeBut l h')
    (hpath : h.files.node true (h.fromCwd path) = .ok (l, n)) :
    ∃ n', h'.files.node true (h'.fromCwd path) = .ok (l, n') := by
  have hcwd : h.fromCwd path = h'.fromCwd path := ha.congr (F := (·.fromCwd path)) (fun _ => rfl)
  have hmap := ha.map_node_eq true (h.fromCwd path)
  rw [hpath, hcwd] at hmap
  obtain ⟨⟨k, n'⟩, hn', heq⟩ := map_eq_ok_iff.mp hmap.symm
  obtain rfl : k = l := congrArg Prod.fst heq
  exact ⟨n', hn'⟩

/-- The lines of a file whose text begins with lines that are ended by line feeds. -/
theorem linesAt_of_readText {ls : List Text} (hls : ∀ l ∈ ls, '\n' ∉ l) {t : Text}
    (hread : h.readText path = .ok (Text.unlines ls ++ t)) : h.linesAt path = ls ++ t.lines := by
  rw [linesAt, hread]
  exact Text.lines_unlines_append_of_not_mem hls t

theorem line_feed_not_mem_of_mem_linesAt {line : Text} (hline : line ∈ h.linesAt path) :
    '\n' ∉ line := by
  rw [linesAt] at hline
  split at hline
  · exact Text.line_feed_not_mem_of_mem_lines hline
  · exact absurd hline List.not_mem_nil

end Host

namespace GitConfig
variable {h h' : Host} {r : LineReader} {lines : List Text} {file path : Text} {i m n room : Nat}
  {cause : Cause} {e : Error}

/-! ## Lines of a script -/

/-- The line that has so many lines above it cannot be read behind what these leave, while they can
be read. -/
inductive FailsAt : LineReader → List Text → Nat → Cause → Prop where
  | here {r : LineReader} {line : Text} {cause : Cause} (more : List Text) :
      r.readLine line = .error cause → FailsAt r (line :: more) 0 cause
  | later {r r' : LineReader} {a : Option Assignment} {line : Text} {more : List Text} {i : Nat}
      {cause : Cause} :
      r.readLine line = .ok (r', a) → FailsAt r' more i cause →
        FailsAt r (line :: more) (i + 1) cause

/-- **The fault of a script is that of a line**, and is given the number of this line. -/
theorem exists_failsAt_of_fault (h : (Script.ofLinesFrom n r lines).fault = some (cause, m)) :
    ∃ i, m = n + i ∧ FailsAt r lines i cause := by
  induction lines generalizing r n with
  | nil => cases h
  | cons line more ih =>
    rw [Script.ofLinesFrom] at h
    cases hline : r.readLine line with
    | error cause' =>
      rw [hline] at h
      cases h
      exact ⟨0, rfl, .here more hline⟩
    | ok step =>
      obtain ⟨r', a⟩ := step
      rw [hline] at h
      obtain ⟨i, rfl, hmore⟩ := ih h
      exact ⟨i + 1, Nat.add_right_comm n 1 i, .later hline hmore⟩

namespace FailsAt

theorem lt_length (hf : FailsAt r lines i cause) : i < lines.length := by
  induction hf with
  | here more _ => exact Nat.succ_pos more.length
  | later _ _ ih => exact Nat.succ_lt_succ ih

/-- **What stands below a line that cannot be read makes no difference.** -/
theorem ofLinesFrom_take_append (hf : FailsAt r lines i cause) (n : Nat) (more : List Text) :
    Script.ofLinesFrom n r (lines.take (i + 1) ++ more) = Script.ofLinesFrom n r lines := by
  induction hf generalizing n with
  | here _ hline =>
    rw [List.take_succ_cons, List.cons_append, Script.ofLinesFrom, Script.ofLinesFrom, hline]
  | later hline _ ih =>
    rw [List.take_succ_cons, List.cons_append, Script.ofLinesFrom, Script.ofLinesFrom, hline]
    simp only [ih]

/-- Nothing is wrong with the lines above one that cannot be read. -/
theorem fault_take (hf : FailsAt r lines i cause) (n : Nat) :
    (Script.ofLinesFrom n r (lines.take i)).fault = none := by
  induction hf generalizing n with
  | here _ _ => rfl
  | later hline _ ih =>
    rw [List.take_succ_cons, Script.ofLinesFrom, hline]
    exact ih (n + 1)

end FailsAt

/-! ## Scripts of files -/

/-- The script of a file, if its lines can be read. -/
def scriptAt (h : Host) (file : Text) : Except Errno Script :=
  (h.readLines file).map Script.ofLines

theorem scriptAt_of_readText {t : Text} (hread : h.readText file = .ok t) :
    scriptAt h file = .ok (Script.ofLines (h.linesAt file)) := by
  rw [scriptAt, Host.readLines_of_readText hread, Host.linesAt, hread]
  rfl

theorem ofFile_succ (h : Host) (room : Nat) (file : Text) :
    Settings.ofFile h (room + 1) file =
      (scriptAt h file).mapError .access >>= carriedOut h room file := by
  rw [Settings.ofFile, scriptAt]
  cases h.readLines file <;> rfl

/-- **Where an error has a line, this line is at fault in the script of its file.** -/
theorem exists_fault_of_ofFile (herror : Settings.ofFile h room file = .error (.gitConfig e))
    (hline : e.line ≠ 0) :
    ∃ script, scriptAt h e.path = .ok script ∧ script.fault = some (e.cause, e.line) := by
  induction room generalizing file with
  | zero =>
    cases herror
    exact absurd rfl hline
  | succ room ih =>
    rw [ofFile_succ] at herror
    rcases bind_eq_error_iff.mp herror with hread | ⟨script, hscript, herror⟩
    · obtain ⟨_, -, haccess⟩ := mapError_eq_error_iff.mp hread
      cases haccess
    rw [carriedOut] at herror
    rcases bind_eq_error_iff.mp herror with hfold | ⟨_, -, hend⟩
    · -- the error is that of a file that is included
      obtain ⟨a, -, s, ha⟩ := exists_of_foldlM_eq_error hfold
      rw [Settings.carryOut] at ha
      split at ha
      · exact ih (map_eq_error_iff.mp ha)
      · cases ha
    · unfold endIn at hend
      split at hend
      · rename_i hfault
        cases hend
        exact ⟨script, mapError_eq_ok_iff.mp hscript, hfault⟩
      · cases hend

/-- **Nothing but their scripts is taken from files.** -/
theorem ofFile_congr
    (hincluded : ∀ file path, includedPath h file path = includedPath h' file path)
    (hscript : ∀ file, scriptAt h file = scriptAt h' file) (room : Nat) (file : Text) :
    Settings.ofFile h room file = Settings.ofFile h' room file := by
  induction room generalizing file with
  | zero => rfl
  | succ room ih =>
    have hcarried : carriedOut h room file = carriedOut h' room file := by
      funext script
      rw [carriedOut, carriedOut]
      simp only [hincluded, ih]
    rw [ofFile_succ, ofFile_succ, hscript, hcarried]

/-- If the script of the file in which two hosts differ is the same on both, then so is that of each
file. -/
theorem scriptAt_eq_of_alikeButFile (ha : h.AlikeButFile path h')
    (hscript : scriptAt h path = scriptAt h' path) (file : Text) :
    scriptAt h file = scriptAt h' file := by
  obtain ⟨l, n, hn, ha⟩ := ha
  obtain ⟨n', hn'⟩ := ha.exists_node hn
  by_cases hfile : ∃ m, h.files.node true (h.fromCwd file) = .ok (l, m)
  · -- the path leads to the file itself, by way of links or not
    obtain ⟨m, hm⟩ := hfile
    obtain ⟨m', hm'⟩ := ha.exists_node hm
    rw [scriptAt, scriptAt, Host.readLines_eq_of_node hm hn, Host.readLines_eq_of_node hm' hn']
    exact hscript
  · have hread : h.readLines file = h'.readLines file :=
      ha.readOr_eq fun m _ hm => absurd ⟨m, hm⟩ hfile
    rw [scriptAt, scriptAt, hread]

/-- **Where the file in which two hosts differ has the same script on both, each configuration file
comes to the same.** -/
theorem settings_eq_of_alikeButFile (ha : h.AlikeButFile path h')
    (hscript : scriptAt h path = scriptAt h' path) (file : Text) (depth : Int) :
    settings h file depth = settings h' file depth := by
  have hscripts := scriptAt_eq_of_alikeButFile ha hscript
  obtain ⟨l, n, -, ha⟩ := ha
  have hpath : filePath h file = filePath h' file :=
    ha.congr (F := fun h => filePath h file) (fun _ => rfl)
  rw [settings, settings, hpath]
  refine ofFile_congr (fun file path => ?_) hscripts _ _
  exact ha.congr (F := fun h => includedPath h file path) (fun _ => rfl)

/-! ## Errors -/

/-- Where an error has a line, its file has been read, and its script ends in a fault there. -/
theorem fault_of_settings {depth : Int} (herror : settings h path depth = .error (.gitConfig e))
    (hline : e.line ≠ 0) :
    scriptAt h e.path = .ok (Script.ofLines (h.linesAt e.path)) ∧
      (Script.ofLines (h.linesAt e.path)).fault = some (e.cause, e.line) := by
  obtain ⟨_, hscript, hfault⟩ := exists_fault_of_ofFile herror hline
  obtain ⟨lines, hlines, rfl⟩ := map_eq_ok_iff.mp hscript
  obtain rfl := Host.eq_linesAt_of_readLines hlines
  exact ⟨hscript, hfault⟩

/-- **An error is at the line that causes it.**  If an error has the number of a line, its file has
a line of this number.  It is the same error for each other text of the file that begins with the
lines down to this one, each of them ended by a line feed; and where the file holds no more than the
lines above, there is no error in a line of this file, whatever is read. -/
theorem settings_error_at_line {depth : Int}
    (herror : settings h path depth = .error (.gitConfig e)) (hline : e.line ≠ 0) :
    let lines := h.linesAt e.path
    (1 ≤ e.line ∧ e.line ≤ lines.length) ∧
    (∀ h' more, h.AlikeButFile e.path h' →
      h'.readText e.path = .ok (Text.unlines (lines.take e.line) ++ more) →
        settings h' path depth = .error (.gitConfig e)) ∧
    ∀ h', h'.readText e.path = .ok (Text.unlines (lines.take (e.line - 1))) →
      ∀ path' depth' e', settings h' path' depth' = .error (.gitConfig e') →
        e'.path = e.path → e'.line = 0 := by
  intro lines
  obtain ⟨hscript, hfault⟩ := fault_of_settings herror hline
  obtain ⟨i, hi, hfails⟩ := exists_failsAt_of_fault hfault
  rw [Nat.add_comm 1 i] at hi
  have hfeed : ∀ k, ∀ l ∈ lines.take k, '\n' ∉ l := fun k l hl =>
    Host.line_feed_not_mem_of_mem_linesAt (List.mem_of_mem_take hl)
  refine ⟨⟨Nat.one_le_iff_ne_zero.mpr hline, ?_⟩, fun h' more ha hread => ?_,
    fun h' hread path' depth' e' herror' hpath => ?_⟩
  · rw [hi]
    exact hfails.lt_length
  · have hlines : h'.linesAt e.path = lines.take (i + 1) ++ more.lines := by
      rw [Host.linesAt_of_readText (hfeed e.line) hread, hi]
    -- the script ends above the text that is another one
    have hsame : scriptAt h e.path = scriptAt h' e.path := by
      rw [hscript, scriptAt_of_readText hread, hlines]
      exact congrArg Except.ok (hfails.ofLinesFrom_take_append 1 more.lines).symm
    rw [← settings_eq_of_alikeButFile ha hsame]
    exact herror
  · -- an error in a line would be a fault of the lines above
    by_contra hne
    have hlines : h'.linesAt e.path = lines.take i := by
      rw [hi, Nat.add_sub_cancel, ← List.append_nil (Text.unlines _)] at hread
      rw [Host.linesAt_of_readText (hfeed i) hread]
      exact List.append_nil _
    have hfault' := (fault_of_settings herror' hne).2
    rw [hpath, hlines] at hfault'
    cases (hfails.fault_take 1).symm.trans hfault'

/-- A file that includes another one, with a value that goes on in its last lines. -/
def faultHost (tail : String) : Host :=
  { files := .ofEntries
      [("/c/main".toList, textFile ("[include]\npath = part\n[a]\nb = \"x\\\n" ++ tail)),
       ("/c/part".toList, textFile "[b]\nc = 1\n")]
    cwd := "/".toList
    homes := ⟨none, []⟩
    configHome := none }

/-- A quote that is still open at the end of the fifth line is an error there, whatever comes in the
next one.  Without the fifth line the value ends with the file. -/
theorem settings_error_of_faultHost :
    let e : Error := ⟨.unterminatedQuote, "/c/main".toList, 5⟩
    settings (faultHost "y\n[\n") e.path 0 = .error (.gitConfig e) ∧
      e.line ≤ ((faultHost "y\n[\n").linesAt e.path).length ∧
      settings (faultHost "y\n\"\n") e.path 0 = .error (.gitConfig e) ∧
      ∀ e', settings (faultHost "") e.path 0 = .error (.gitConfig e') → e'.path = e.path →
        e'.line = 0 := by
  intro e
  have herror : settings (faultHost "y\n[\n") e.path 0 = .error (.gitConfig e) := by
    decide +kernel
  have ha : (faultHost "y\n[\n").AlikeButFile e.path (faultHost "y\n\"\n") := by
    obtain ⟨⟨l, n⟩, hn, hl⟩ : ∃ found, (faultHost "y\n[\n").files.node true e.path = .ok found ∧
        decide (found.1 = ["c".toList, "main".toList]) = true :=
      exists_eq_ok_of_any (by decide +kernel)
    obtain rfl := of_decide_eq_true hl
    have houtline : (faultHost "y\n[\n").files.outline = (faultHost "y\n\"\n").files.outline :=
      congrArg₂ FileSystem.mk (by decide +kernel) (by decide +kernel)
    have hhost := congrArg (fun files => { faultHost "" with files }) houtline
    exact ⟨_, n, hn, hhost, by decide +kernel⟩
  obtain ⟨⟨-, hlength⟩, hsame, hgone⟩ := settings_error_at_line herror (by decide)
  exact ⟨herror, hlength, hsame _ "\"\n".toList ha (by decide +kernel),
    hgone (faultHost "") (by decide +kernel) e.path 0⟩

end GitConfig
end PathFilter
