import Mathlib.Logic.Relation
import PathFilter.Proofs.FileText
import PathFilter.Proofs.HostAccess
import PathFilter.Proofs.SettingsValues

/-! # Configuration files that include others

A configuration file with all that it includes can be read as one flat sequence of assignments, in
which an assignment to `include.path` is replaced by the sequence of the file that it names
(`reading`).  It names a file by its path, with the home directory written out, relative to the
directory of the file in which it stands (`namedFile`).  The sequence ends early where a line is
malformed or a file is included too deep, and such a fault at any depth is a fault of the whole.

The settings of included files are merged into those of the files that include them, one level
after the other.  **Nothing but the flat sequence shows in the result**
(`ofFile_eq_outcome`): it is the fault that the sequence ends in, or else the settings that its
assignments leave behind.

* Where the current directory is an absolute path, so are the paths of all files that are read, and
  the path at which an included file is looked up is the one that names it
  (`includedPath_eq_namedFile`).
* Where a file can be read, the includes that lead on from it are no deeper than the limit
  (`length_lt_of_ofFile`), and none lead on for ever (`acc_of_ofFile`).  So a file that leads to an
  include cycle cannot be read, whatever else is wrong with it.
-/

namespace PathFilter

/-- The lines of a file; where no file can be read there are none. -/
def Host.linesAt (h : Host) (path : Text) : List Text :=
  match h.readText path with
  | .ok t => t.lines
  | .error _ => []

/-- The lines that are read from a file, if they can be. -/
theorem Host.eq_linesAt_of_readLines {h : Host} {path : Text} {lines : List Text}
    (hread : h.readLines path = .ok lines) : lines = h.linesAt path := by
  rw [readLines, readOr] at hread
  rw [linesAt]
  cases htext : h.readText path with
  | ok t =>
    rw [htext] at hread
    exact (Except.ok.inj hread).symm
  | error e =>
    simp only [htext] at hread
    split at hread
    · exact (Except.ok.inj hread).symm
    · cases hread

/-- Where errors are mild, lines can be asked for anywhere. -/
theorem Host.readLines_eq {h : Host} (hm : h.files.Mild) (path : Text) :
    h.readLines path = .ok (h.linesAt path) := by
  obtain ⟨lines, hread⟩ := exists_readLines_eq hm path
  rw [hread, eq_linesAt_of_readLines hread]

namespace GitConfig
variable {h : Host} {room : Nat} {file : Text} {s : Settings}

/-! ## The files that are named -/

/-- The file that is named by a path which stands in another file: the path is taken with its home
directory written out, and relative to the directory of that file. -/
def namedFile (homes : Homes) (file path : Text) : Text :=
  Path.normalize (Path.join (Path.parent file) (homes.expand path))

theorem head?_namedFile (hfile : file.head? = some '/') (homes : Homes) (path : Text) :
    (namedFile homes file path).head? = some '/' :=
  Path.head?_normalize (Path.head?_join (Path.head?_parent hfile) _)

/-- The path of a file is an absolute one. -/
theorem head?_filePath (hcwd : h.cwd.head? = some '/') (path : Text) :
    (filePath h path).head? = some '/' :=
  Path.head?_normalize (Path.head?_join hcwd _)

/-- **An included file is looked up at the path that names it.** -/
theorem includedPath_eq_namedFile (hfile : file.head? = some '/') (path : Text) :
    includedPath h file path = namedFile h.homes file path := by
  have hjoin : (Path.join (Path.parent file) (h.expand path)).head? = some '/' :=
    Path.head?_join (Path.head?_parent hfile) _
  rw [includedPath, filePath, Host.expand_of_head? hjoin, Host.absolute_of_head? hjoin]
  rfl

/-! ## Flat sequences -/

/-- A flat sequence of assignments, and the fault that it ends in, if it does. -/
structure Reading where
  assignments : List Assignment
  fault : Option Error
deriving DecidableEq

namespace Reading
variable {r : Reading}

/-- A sequence goes on with what comes after, unless it has ended in a fault. -/
def andThen (r next : Reading) : Reading :=
  match r.fault with
  | some _ => r
  | none => ⟨r.assignments ++ next.assignments, next.fault⟩

/-- What a sequence comes to: the fault that it ends in, or the settings that its assignments
leave behind. -/
def outcome (r : Reading) : Except Failure Settings :=
  match r.fault with
  | some e => .error (.gitConfig e)
  | none => .ok (Settings.ofAssignments r.assignments)

theorem eq_ofAssignments_of_outcome {s : Settings} (h : r.outcome = .ok s) :
    s = Settings.ofAssignments r.assignments := by
  rw [outcome] at h
  split at h
  · cases h
  · exact (Except.ok.inj h).symm

end Reading

/-- The flat sequence of a file that is included at the given depth, the sequences of the files that
it names in place of the assignments that name them.  A file that is included deeper than ten is not
read. -/
def reading (h : Host) (depth : Nat) (file : Text) : Reading :=
  if 10 < depth then ⟨[], some ⟨.includeTooDeep, file, 0⟩⟩
  else
    let script := Script.ofLines (h.linesAt file)
    script.assignments.foldr
      (fun a rest =>
        (if a.key = "include.path".toList then
            reading h (depth + 1) (namedFile h.homes file a.value)
          else ⟨[a], none⟩).andThen rest)
      ⟨[], script.fault.map fun (cause, line) => ⟨cause, file, line⟩⟩
termination_by 11 - depth

/-! ## Merging -/

/-- Ends the settings of a file in the fault that its script ends in, if it does. -/
def endIn (file : Text) (fault : Option (Cause × Nat)) (s : Settings) : Except Failure Settings :=
  match fault with
  | some (cause, line) => throw (.gitConfig ⟨cause, file, line⟩)
  | none => return s

/-- What a file comes to that can be included, once its lines are read. -/
def carriedOut (h : Host) (room : Nat) (file : Text) (script : Script) : Except Failure Settings :=
  script.assignments.foldlM
    (Settings.carryOut fun path => Settings.ofFile h room (includedPath h file path)) [] >>=
      endIn file script.fault

theorem ofFile_of_readLines {lines : List Text} (hlines : h.readLines file = .ok lines)
    (room : Nat) :
    Settings.ofFile h (room + 1) file = carriedOut h room file (Script.ofLines lines) := by
  rw [Settings.ofFile, hlines]
  rfl

/-- A file that can be read has been read line by line. -/
theorem carriedOut_of_ofFile (hfile : Settings.ofFile h (room + 1) file = .ok s) :
    carriedOut h room file (Script.ofLines (h.linesAt file)) = .ok s := by
  cases hread : h.readLines file with
  | error e =>
    rw [Settings.ofFile, hread] at hfile
    cases hfile
  | ok lines => rwa [ofFile_of_readLines hread, Host.eq_linesAt_of_readLines hread] at hfile

/-- Assignments that include nothing are carried out by themselves. -/
theorem carriedOut_of_ne {script : Script} (hkeys : ∀ a ∈ script.assignments, a.key ≠ includeKey)
    (room : Nat) (file : Text) :
    carriedOut h room file script =
      endIn file script.fault (Settings.ofAssignments script.assignments) := by
  have hfold : ∀ (as : List Assignment) (s : Settings), (∀ a ∈ as, a.key ≠ includeKey) →
      as.foldlM
          (Settings.carryOut fun path => Settings.ofFile h room (includedPath h file path)) s =
        .ok (as.foldl (fun s a => s.set a.key a.value) s) := by
    intro as
    induction as with
    | nil => exact fun s _ => rfl
    | cons a as ih =>
      intro s has
      rw [List.foldlM_cons, Settings.carryOut, if_neg (has a List.mem_cons_self)]
      exact ih _ fun b hb => has b (List.mem_cons_of_mem a hb)
  rw [carriedOut, hfold _ _ hkeys]
  rfl

/-- Carrying out assignments, one of which may include a file, behind others. -/
theorem foldlM_carryOut_eq_outcome {included : Text → Except Failure Settings}
    {sequence : Text → Reading} (hincluded : ∀ path, included path = (sequence path).outcome)
    (file : Text) (fault : Option (Cause × Nat)) (done as : List Assignment) :
    (as.foldlM (Settings.carryOut included) (Settings.ofAssignments done) >>= endIn file fault) =
      (Reading.andThen ⟨done, none⟩ (as.foldr
        (fun a rest => (if a.key = includeKey then sequence a.value else ⟨[a], none⟩).andThen rest)
        ⟨[], fault.map fun (cause, line) => ⟨cause, file, line⟩⟩)).outcome := by
  induction as generalizing done with
  | nil =>
    cases fault with
    | none => rw [List.foldr_nil, Reading.andThen]; simp only [List.append_nil]; rfl
    | some place => rfl
  | cons a as ih =>
    rw [List.foldlM_cons, List.foldr_cons, Settings.carryOut]
    by_cases hkey : a.key = includeKey
    · rw [if_pos hkey, if_pos hkey, hincluded]
      obtain ⟨read, broken⟩ := sequence a.value
      cases broken with
      | some e => rfl
      | none =>
        -- what is included has been read to its end: its assignments come behind those before
        show (as.foldlM _ (Settings.update (.ofAssignments done) (.ofAssignments read)) >>= _) = _
        rw [Settings.update_ofAssignments, ih]
        simp only [Reading.andThen, List.append_assoc]
    · rw [if_neg hkey, if_neg hkey]
      show (as.foldlM _ ((Settings.ofAssignments done).set a.key a.value) >>= _) = _
      rw [← Settings.ofAssignments_concat, ih]
      simp only [Reading.andThen, List.append_assoc]

/-- **The settings of a file are what its flat sequence comes to.** -/
theorem ofFile_eq_outcome (hm : h.files.Mild) {depth : Nat} (hroom : room = 11 - depth)
    (hfile : file.head? = some '/') :
    Settings.ofFile h room file = (reading h depth file).outcome := by
  induction room generalizing depth file with
  | zero =>
    rw [reading, if_pos (by omega)]
    rfl
  | succ room ih =>
    have hnext : room = 11 - (depth + 1) := by omega
    have hincluded : ∀ path, Settings.ofFile h room (includedPath h file path) =
        (reading h (depth + 1) (namedFile h.homes file path)).outcome := by
      intro path
      rw [includedPath_eq_namedFile hfile]
      exact ih hnext (head?_namedFile hfile h.homes path)
    rw [ofFile_of_readLines (Host.readLines_eq hm file), reading, if_neg (by omega)]
    exact foldlM_carryOut_eq_outcome hincluded file _ [] _

theorem settings_eq_outcome (hcwd : h.cwd.head? = some '/') (hm : h.files.Mild) (path : Text)
    (depth : Nat) : settings h path depth = (reading h depth (filePath h path)).outcome := by
  have hroom : (includeLimit + 1 - (depth : Int)).toNat = 11 - depth := by
    rw [includeLimit]
    omega
  rw [settings]
  exact ofFile_eq_outcome hm hroom (head?_filePath hcwd path)

/-- Where errors of the file system are mild, a file comes to nothing only if it is malformed, or
includes one that is or that is included too deep. -/
theorem exists_of_ofFile_eq_error (hm : h.files.Mild) {failure : Failure}
    (hfile : Settings.ofFile h room file = .error failure) : ∃ e, failure = .gitConfig e := by
  induction room generalizing file with
  | zero =>
    cases hfile
    exact ⟨_, rfl⟩
  | succ room ih =>
    rw [ofFile_of_readLines (Host.readLines_eq hm file)] at hfile
    rcases bind_eq_error_iff.mp hfile with hfold | ⟨s, -, hend⟩
    · obtain ⟨a, -, s, hstep⟩ := exists_of_foldlM_eq_error hfold
      rw [Settings.carryOut] at hstep
      split at hstep
      · exact ih (map_eq_error_iff.mp hstep)
      · cases hstep
    · unfold endIn at hend
      split at hend
      · cases hend
        exact ⟨_, rfl⟩
      · cases hend

/-! ## Cycles -/

/-- One file includes another: an assignment that stands before any malformed line says so. -/
def Includes (h : Host) (file other : Text) : Prop :=
  ∃ a ∈ (Script.ofLines (h.linesAt file)).assignments,
    a.key = includeKey ∧ other = includedPath h file a.value

/-- One file names another as one to include, in an assignment that stands before any malformed
line. -/
def Names (h : Host) (file other : Text) : Prop :=
  ∃ a ∈ (Script.ofLines (h.linesAt file)).assignments,
    a.key = "include.path".toList ∧ other = namedFile h.homes file a.value

theorem Names.head?_eq {other : Text} (hnames : Names h file other)
    (hfile : file.head? = some '/') : other.head? = some '/' := by
  obtain ⟨a, -, -, rfl⟩ := hnames
  exact head?_namedFile hfile h.homes a.value

/-- A file includes what it names. -/
theorem Names.includes {other : Text} (hnames : Names h file other)
    (hfile : file.head? = some '/') : Includes h file other := by
  obtain ⟨a, ha, hkey, rfl⟩ := hnames
  exact ⟨a, ha, hkey, (includedPath_eq_namedFile hfile a.value).symm⟩

/-- A file can be read only if it is not malformed. -/
theorem fault_eq_none_of_ofFile (hfile : Settings.ofFile h (room + 1) file = .ok s) :
    (Script.ofLines (h.linesAt file)).fault = none := by
  obtain ⟨_, -, hend⟩ := bind_eq_ok_iff.mp (carriedOut_of_ofFile hfile)
  cases hfault : (Script.ofLines (h.linesAt file)).fault with
  | none => rfl
  | some place => rw [hfault] at hend; cases hend

/-- A file can be read only if what it includes can be. -/
theorem exists_ofFile_of_includes {other : Text}
    (hfile : Settings.ofFile h (room + 1) file = .ok s) (hinc : Includes h file other) :
    ∃ t, Settings.ofFile h room other = .ok t := by
  obtain ⟨a, ha, hkey, rfl⟩ := hinc
  obtain ⟨_, hfold, -⟩ := bind_eq_ok_iff.mp (carriedOut_of_ofFile hfile)
  obtain ⟨t, t', ht⟩ := exists_of_foldlM hfold ha
  rw [Settings.carryOut, if_pos hkey] at ht
  obtain ⟨t, ht, -⟩ := map_eq_ok_iff.mp ht
  exact ⟨t, ht⟩

/-- A file can be read only if every file that includes lead to can be. -/
theorem exists_ofFile_of_reached {start : Text} (hstart : Settings.ofFile h room start = .ok s)
    (hreach : Relation.ReflTransGen (Includes h) start file) :
    ∃ room' t, Settings.ofFile h (room' + 1) file = .ok t := by
  induction hreach using Relation.ReflTransGen.head_induction_on generalizing room s with
  | refl =>
    cases room with
    | zero => cases hstart
    | succ room => exact ⟨room, s, hstart⟩
  | head hinc _ ih =>
    cases room with
    | zero => cases hstart
    | succ room =>
      obtain ⟨t, ht⟩ := exists_ofFile_of_includes hstart hinc
      exact ih ht

/-- Where a file can be read, no includes lead on from it further than there is room. -/
theorem length_lt_of_ofFile {files : List Text} (hhead : file.head? = some '/')
    (hfile : Settings.ofFile h room file = .ok s) (hchain : (file :: files).IsChain (Names h)) :
    files.length < room := by
  induction room generalizing file files s with
  | zero => cases hfile
  | succ room ih =>
    cases files with
    | nil => exact Nat.succ_pos room
    | cons next files =>
      obtain ⟨hnames, hchain⟩ := List.isChain_cons_cons.mp hchain
      obtain ⟨t, ht⟩ := exists_ofFile_of_includes hfile (hnames.includes hhead)
      exact Nat.succ_lt_succ (ih (hnames.head?_eq hhead) ht hchain)

/-- **Where a file can be read, no includes lead on from it for ever.** -/
theorem acc_of_ofFile (hhead : file.head? = some '/')
    (hfile : Settings.ofFile h room file = .ok s) :
    Acc (fun other file => Names h file other) file := by
  induction room generalizing file s with
  | zero => cases hfile
  | succ room ih =>
    refine .intro file fun other hnames => ?_
    obtain ⟨t, ht⟩ := exists_ofFile_of_includes hfile (hnames.includes hhead)
    exact ih (hnames.head?_eq hhead) ht

/-- Where no includes lead on for ever, no cycle is reached. -/
theorem not_cycle_of_acc {start : Text} (hacc : Acc (fun other file => Names h file other) start)
    (hreach : Relation.ReflTransGen (Names h) start file) :
    ¬ Relation.TransGen (Names h) file file := by
  induction hacc generalizing file with
  | intro start _ ih =>
    intro hcycle
    rcases Relation.ReflTransGen.cases_head hreach with rfl | ⟨next, hnext, hreach⟩
    · -- the cycle begins here, and is met again behind its first step
      obtain ⟨next, hnext, hback⟩ := Relation.TransGen.head'_iff.mp hcycle
      exact ih next hnext hback hcycle
    · exact ih next hnext hreach hcycle

/-- **A configuration file is read as one flat sequence of assignments.**  The path of the file is
taken with its home directory written out and from the current directory, that of an included file
likewise and from the directory of the file that includes it.  What a file comes to at any depth is
what its flat sequence comes to: the fault that the sequence ends in, and no settings, or the value
of each key that is assigned to it last.  A file with includes that lead on from it deeper than ten
comes to a fault, and so does one that leads to an include cycle. -/
theorem settings_eq_outcome_reading (hcwd : h.cwd.head? = some '/') (hc : h.files.Calm)
    (path : Text) (depth : Nat) :
    let start := Path.normalize (Path.join h.cwd (h.homes.expand path))
    let r := reading h depth start
    settings h path depth = r.outcome ∧
      (∀ s, settings h path depth = .ok s → s.Distinct ∧
        ∀ key, s.get? key = lastValue? r.assignments key) ∧
      (∀ files, (start :: files).IsChain (Names h) → 10 < depth + files.length →
        ∃ e, settings h path depth = .error (.gitConfig e)) ∧
      ∀ file, Relation.ReflTransGen (Names h) start file →
        Relation.TransGen (Names h) file file →
          ∃ e, settings h path depth = .error (.gitConfig e) := by
  intro start r
  have hstart : start.head? = some '/' := head?_filePath hcwd path
  have hsettings : settings h path depth = r.outcome := settings_eq_outcome hcwd hc.mild path depth
  have hfault : (∀ s, settings h path depth ≠ .ok s) →
      ∃ e, settings h path depth = .error (.gitConfig e) := by
    intro hne
    cases hs : settings h path depth with
    | ok s => exact absurd hs (hne s)
    | error failure =>
      obtain ⟨e, rfl⟩ := exists_of_ofFile_eq_error hc.mild hs
      exact ⟨e, rfl⟩
  refine ⟨hsettings, fun s hs => ?_, fun files hchain hdeep => hfault fun s hs => ?_,
    fun file hreach hcycle => hfault fun s hs => ?_⟩
  · cases Reading.eq_ofAssignments_of_outcome (hsettings.symm.trans hs)
    exact ⟨Settings.distinct_ofAssignments _, Settings.get?_ofAssignments _⟩
  · have hlength := length_lt_of_ofFile hstart hs hchain
    rw [includeLimit] at hlength
    omega
  · exact not_cycle_of_acc (acc_of_ofFile hstart hs) hreach hcycle

/-- A file with a text. -/
def textFile (t : String) : Entry := { kind := .file (Text.Utf8.encode t.toList) }

/-- A file that includes one with a further include, one that does not exist, and one in the home
directory; and a file that includes itself. -/
def includeHost : Host :=
  { files := .ofEntries
      [("/c/main".toList, textFile
          "[core]\nx = 1\n[include]\npath = sub/part\npath = gone\npath = ~/own\nother = y\n"),
       ("/c/sub/part".toList, textFile "[core]\nx = 2\n[include]\npath = more\n"),
       ("/c/sub/more".toList, textFile "[core]\nx = 3\n"),
       ("/home/u/own".toList, textFile "[core]\nz = 4\n"),
       ("/c/loop".toList, textFile "[include]\npath = loop\n")]
    cwd := "/c".toList
    homes := ⟨some "/home/u".toList, []⟩
    configHome := none }

/-- The innermost file has the last word on `core.x`, the file in the home directory gives `core.z`,
and behind the includes the section of the including file is still open; the file that includes
itself comes to a fault. -/
theorem settings_of_includeHost :
    (∃ s, settings includeHost "main".toList (0 : Nat) = .ok s ∧
      s.get? "core.x".toList = some "3".toList ∧ s.get? "core.z".toList = some "4".toList ∧
      s.get? "include.other".toList = some "y".toList ∧
      ∀ key, s.get? key =
        lastValue? (reading includeHost 0 "/c/main".toList).assignments key) ∧
    ∃ e, settings includeHost "loop".toList (0 : Nat) = .error (.gitConfig e) := by
  have hcwd : includeHost.cwd.head? = some '/' := rfl
  have hc : includeHost.files.Calm := by decide +kernel
  constructor
  · obtain ⟨s, hs, hvalues⟩ : ∃ s, settings includeHost "main".toList (0 : Nat) = .ok s ∧
        decide (s.get? "core.x".toList = some "3".toList ∧
          s.get? "core.z".toList = some "4".toList ∧
          s.get? "include.other".toList = some "y".toList) = true :=
      exists_eq_ok_of_any (by decide +kernel)
    obtain ⟨hx, hz, hother⟩ := of_decide_eq_true hvalues
    have hstart : Path.normalize (Path.join includeHost.cwd
        (includeHost.homes.expand "main".toList)) = "/c/main".toList := by decide +kernel
    have hlast := ((settings_eq_outcome_reading hcwd hc "main".toList 0).2.1 s hs).2
    rw [hstart] at hlast
    exact ⟨s, hs, hx, hz, hother, hlast⟩
  · have hloop : Names includeHost "/c/loop".toList "/c/loop".toList :=
      ⟨⟨includeKey, "loop".toList⟩, by decide +kernel, rfl, by decide +kernel⟩
    have hstart : Path.normalize (Path.join includeHost.cwd
        (includeHost.homes.expand "loop".toList)) = "/c/loop".toList := by decide +kernel
    have hcycle := (settings_eq_outcome_reading hcwd hc "loop".toList 0).2.2.2 "/c/loop".toList
    rw [hstart] at hcycle
    exact hcycle .refl (.single hloop)

end GitConfig
end PathFilter
