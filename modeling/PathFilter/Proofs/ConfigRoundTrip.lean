import Mathlib.Data.Bool.AllAny
import PathFilter.Proofs.ConfigLines
import PathFilter.Proofs.Includes

/-! # Configuration files that are written and read back

A declaration gives a key of a section a value (`Declaration`).  It is written as a header and an
assignment with the value in double quotes, in which a backslash, a quote and a line feed are
escaped, and which may be broken off anywhere and go on in the next line (`Declaration.lines`).

**A file of declarations is read back as what it declares** (`settings_render`): of each key, the
value that is declared last.  What is read back from the lines of one declaration is that
declaration (`ofLinesFrom_declaration`), and within its value that goes character by character: the
text between the quotes holds the characters that are still to be read (`HoldsValue`).
-/

namespace PathFilter

theorem Text.splitOn_append_of_not_mem {sep : Char} {s t u : Text} {more : List Text} (hs : sep ∉ s)
    (ht : splitOn sep t = u :: more) : splitOn sep (s ++ t) = (s ++ u) :: more := by
  induction s with
  | nil => exact ht
  | cons c s ih =>
    rw [List.cons_append, splitOn, if_neg (List.ne_of_not_mem_cons hs).symm,
      ih (List.not_mem_of_not_mem_cons hs)]
    rfl

namespace GitConfig

/-! ## Declarations -/

/-- A key, the section and perhaps the subsection that it belongs to, and a value for it. -/
structure Declaration where
  name : Text
  subsection : Option Text
  key : Text
  value : Text
  /-- How many times the value is broken off before each of its characters and at its end. -/
  breaks : Nat → Nat
  name_ne_nil : name ≠ []
  name_chars : ∀ c ∈ name, c.isAlphanum = true ∨ c = '.' ∨ c = '-'
  subsection_chars : ∀ sub ∈ subsection, '\n' ∉ sub ∧ '\r' ∉ sub
  key_head : key.head?.any Char.isAlpha = true
  key_chars : ∀ c ∈ key, c.isAlphanum = true ∨ c = '-'
  value_chars : '\r' ∉ value

/-- The name of a subsection as it is written between quotes. -/
def writeSubsection (sub : Text) : Text :=
  sub.flatMap fun c => if c = '\\' ∨ c = '"' then ['\\', c] else [c]

/-- A character of a value as it is written between quotes. -/
def writeChar (c : Char) : Text :=
  if c = '\\' ∨ c = '"' then ['\\', c] else if c = '\n' then ['\\', 'n'] else [c]

/-- Line ends that a value goes on behind. -/
def writeBreaks (n : Nat) : Text :=
  (List.replicate n ['\\', '\n']).flatten

/-- A value as it is written between quotes, with breaks before each character and at its end. -/
def writeValue (breaks : Nat → Nat) : Text → Text
  | [] => writeBreaks (breaks 0)
  | c :: value =>
    writeBreaks (breaks 0) ++ (writeChar c ++ writeValue (fun i => breaks (i + 1)) value)

namespace Declaration

/-- The section of the key, with the subsection if there is one. -/
def sectionName (d : Declaration) : Text :=
  match d.subsection with
  | none => d.name.map Char.toLower
  | some sub => d.name.map Char.toLower ++ '.' :: sub

/-- What is declared: the value for the key with its section. -/
def assignment (d : Declaration) : Assignment :=
  ⟨d.sectionName ++ '.' :: d.key.map Char.toLower, d.value⟩

/-- The header as it is written, without its opening bracket. -/
def header (d : Declaration) : Text :=
  match d.subsection with
  | none => d.name ++ [']']
  | some sub => d.name ++ ' ' :: '"' :: (writeSubsection sub ++ ['"', ']'])

/-- The assignment as it is written, which may take up several lines. -/
def body (d : Declaration) : Text :=
  '\t' :: (d.key ++ (' ' :: '=' :: ' ' :: '"' :: (writeValue d.breaks d.value ++ ['"'])))

end Declaration

/-- The text of a file with declarations. -/
def render (ds : List Declaration) : Text :=
  Text.unlines (ds.flatMap fun d => ['[' :: d.header, d.body])

variable {v v' : ValueReader} {s t u x value name sub : Text} {c : Char} {r : LineReader} {n : Nat}
  {rest : List Text} {d : Declaration} {ds : List Declaration}

/-! ## Values between quotes -/

/-- A text in lines holds a value that is read on with `v`: the value is complete with the last of
the lines.  The first of them has no blank at its end. -/
def HoldsValue (v : ValueReader) (t x : Text) : Prop :=
  ∃ s c more, Text.splitOn '\n' t = (s ++ [c]) :: more ∧ Text.isBlank c = false ∧
    ∀ rest, Completes v ((s ++ [c]) :: (more ++ rest)) x rest

theorem HoldsValue.closing (hq : v.quoted = true) : HoldsValue v ['"'] (v.read ++ v.held) := by
  refine ⟨[], '"', [], rfl, by decide, fun rest => .here ?_⟩
  rw [List.nil_append, readValue_quote, readValue]
  simp [ValueReader.toggle, ValueReader.take, hq]

theorem HoldsValue.prepend (hs : '\n' ∉ s) (hread : ∀ u, readValue v (s ++ u) = readValue v' u)
    (h : HoldsValue v' t x) : HoldsValue v (s ++ t) x := by
  obtain ⟨u, c, more, hsplit, hc, hcompletes⟩ := h
  refine ⟨s ++ u, c, more, ?_, hc, fun rest => ?_⟩
  · rw [List.append_assoc]
    exact Text.splitOn_append_of_not_mem hs hsplit
  · rw [List.append_assoc]
    exact (hcompletes rest).of_eq (hread _)

theorem HoldsValue.behind_break (h : HoldsValue v t x) : HoldsValue v ('\\' :: '\n' :: t) x := by
  obtain ⟨s, c, more, hsplit, -, hcompletes⟩ := h
  refine ⟨[], '\\', (s ++ [c]) :: more, ?_, by decide, fun rest => .next rfl (hcompletes rest)⟩
  have hbreak := Text.splitOn_append_cons '\n' ['\\'] t
  rw [hsplit] at hbreak
  exact hbreak

theorem HoldsValue.writeBreaks (h : HoldsValue v t x) (n : Nat) :
    HoldsValue v (writeBreaks n ++ t) x := by
  induction n with
  | zero => exact h
  | succ n ih =>
    rw [GitConfig.writeBreaks, List.replicate_succ, List.flatten_cons, List.append_assoc]
    exact ih.behind_break

/-- A character is read back as it is written between quotes. -/
theorem readValue_writeChar (hq : v.quoted = true) (c : Char) (u : Text) :
    readValue v (writeChar c ++ u) = readValue (v.take [c]) u := by
  rw [writeChar]
  split
  · rename_i hc
    rcases hc with rfl | rfl <;> rfl
  rename_i hc
  obtain ⟨hslash, hquote⟩ := not_or.mp hc
  split
  · rename_i hline
    subst hline
    rfl
  · rw [List.singleton_append, readValue.eq_4 v c u (fun h => absurd h hslash)
      (fun _ _ h => absurd h hslash), if_neg hquote]
    simp [hq]

theorem line_feed_not_mem_writeChar (c : Char) : '\n' ∉ writeChar c := by
  rw [writeChar]
  split
  · rename_i hc
    rcases hc with rfl | rfl <;> decide
  · split
    · decide
    · rename_i hc
      exact fun h => hc (List.mem_singleton.mp h).symm

/-- **A value that is written between quotes is read back**, wherever it is broken off. -/
theorem holdsValue_writeValue (hq : v.quoted = true) (breaks : Nat → Nat) (value : Text) :
    HoldsValue v (writeValue breaks value ++ ['"']) (v.read ++ v.held ++ value) := by
  induction value generalizing v breaks with
  | nil =>
    rw [writeValue, List.append_nil]
    exact (HoldsValue.closing hq).writeBreaks _
  | cons c value ih =>
    have htake : (v.take [c]).read ++ (v.take [c]).held ++ value =
        v.read ++ v.held ++ c :: value := by simp [ValueReader.take]
    have hrest := ih (v := v.take [c]) hq fun i => breaks (i + 1)
    rw [htake] at hrest
    rw [writeValue, List.append_assoc, List.append_assoc]
    exact (hrest.prepend (line_feed_not_mem_writeChar c) (readValue_writeChar hq c)).writeBreaks _

/-! ## Headers -/

theorem readSubsection_writeSubsection (sub rest : Text) :
    readSubsection (writeSubsection sub ++ '"' :: rest) = some (sub, rest) := by
  induction sub with
  | nil => rfl
  | cons c sub ih =>
    rw [writeSubsection, List.flatMap_cons, ← writeSubsection, List.append_assoc]
    split
    · rw [List.cons_append, List.singleton_append, readSubsection, ih]
      rfl
    · rename_i hc
      obtain ⟨hslash, hquote⟩ := not_or.mp hc
      rw [List.singleton_append, readSubsection_cons hslash, if_neg hquote, ih]
      rfl

theorem Declaration.isSectionChar_of_mem (d : Declaration) :
    ∀ c ∈ d.name, isSectionChar c = true := by
  intro c hc
  simpa [isSectionChar, or_assoc] using d.name_chars c hc

/-- A header is written as one. -/
theorem Declaration.isHeader_header (d : Declaration) : IsHeader d.header d.sectionName := by
  cases hsub : d.subsection with
  | none =>
    have hheader : d.header = [] ++ (d.name ++ ([] ++ [']'])) := by rw [header, hsub]; rfl
    have hsection : d.sectionName = lower d.name := by rw [sectionName, hsub]; rfl
    rw [hheader, hsection]
    exact .plain nofun d.name_ne_nil d.isSectionChar_of_mem nofun
  | some sub =>
    have hheader : d.header =
        [] ++ (d.name ++ ([' '] ++ '"' :: ((writeSubsection sub ++ ['"']) ++ ([] ++ [']'])))) := by
      rw [header, hsub]
      simp
    have hsection : d.sectionName = lower d.name ++ '.' :: sub := by rw [sectionName, hsub]; rfl
    rw [hheader, hsection]
    exact .quoted nofun d.name_ne_nil d.isSectionChar_of_mem (List.cons_ne_nil _ _)
      (List.all_eq_true.mp (by decide)) (readSubsection_writeSubsection sub []) nofun

/-- A header is a line. -/
theorem Declaration.readLine_header (d : Declaration) (hr : r.pending = none) :
    r.readLine ('[' :: d.header) = .ok ({ r with inSection := some d.sectionName }, none) := by
  have hstrip : Text.strip ('[' :: d.header) = '[' :: d.header := by
    obtain ⟨t, ht⟩ : ∃ t, d.header = t ++ [']'] := by
      rw [header]
      split
      · exact ⟨_, rfl⟩
      · rename_i sub _
        exact ⟨d.name ++ ' ' :: '"' :: (writeSubsection sub ++ ['"']), by simp⟩
    rw [ht, Text.strip, Text.trim, List.dropWhile_cons_of_neg (by decide), ← List.cons_append,
      Text.dropTrailing_append_of_not (by decide)]
  have hread : readHeader d.header = .ok (d.sectionName, []) :=
    readHeader_eq_ok_iff.mpr ⟨d.header, d.isHeader_header, (List.append_nil _).symm⟩
  rw [LineReader.readLine, hr]
  simp only [hstrip, hread]
  rfl

theorem not_mem_writeSubsection (hc : c ≠ '\\') (h : c ∉ sub) : c ∉ writeSubsection sub := by
  intro hmem
  obtain ⟨d, hd, hmem⟩ := List.mem_flatMap.mp hmem
  have heq : c = d := by
    split at hmem
    · exact List.mem_singleton.mp ((List.mem_cons.mp hmem).resolve_left hc)
    · exact List.mem_singleton.mp hmem
  exact h (heq ▸ hd)

/-- No line ends in a header. -/
theorem Declaration.not_mem_header (d : Declaration) (hc : c = '\n' ∨ c = '\r') :
    c ∉ '[' :: d.header := by
  have hname : c ∉ d.name := by
    intro hmem
    have hblank := isBlank_of_isSectionChar (d.isSectionChar_of_mem c hmem)
    rcases hc with rfl | rfl <;> cases hblank
  have hsub : ∀ sub ∈ d.subsection, c ∉ writeSubsection sub := by
    intro sub hsub
    obtain ⟨hfeed, hreturn⟩ := d.subsection_chars sub hsub
    rcases hc with rfl | rfl
    · exact not_mem_writeSubsection (by decide) hfeed
    · exact not_mem_writeSubsection (by decide) hreturn
  rw [header]
  split
  · rcases hc with rfl | rfl <;> simp [hname]
  · rename_i sub hsome
    have hsub := hsub sub hsome
    rcases hc with rfl | rfl <;> simp [hname, hsub]

/-! ## Declarations read back -/

/-- **The lines of a declaration are read as what it declares.** -/
theorem ofLinesFrom_declaration (hr : r.pending = none) (n : Nat) (d : Declaration)
    (rest : List Text) : ∃ n' r', r'.pending = none ∧
      Script.ofLinesFrom n r
        (Text.splitOn '\n' ('[' :: d.header) ++ (Text.splitOn '\n' d.body ++ rest)) =
      Script.behind n' r' rest d.assignment := by
  have hvalue : HoldsValue (ValueReader.toggle {}) (writeValue d.breaks d.value ++ ['"']) d.value :=
    holdsValue_writeValue rfl d.breaks d.value
  obtain ⟨s, c, more, hsplit, hc, hcompletes⟩ := hvalue
  -- the first line of the value, with what stands before it
  have hfront : '\n' ∉ '\t' :: (d.key ++ [' ', '=', ' ', '"']) := by
    have hkey : '\n' ∉ d.key := fun hmem => absurd (d.key_chars '\n' hmem) (by decide)
    simp [hkey]
  have hbody : Text.splitOn '\n' d.body =
      ('\t' :: (d.key ++ ([' '] ++ '=' :: ' ' :: '"' :: (s ++ [c])))) :: more := by
    have h := Text.splitOn_append_of_not_mem hfront hsplit
    simpa [Declaration.body] using h
  have hassigns : Assigns ('\t' :: (d.key ++ ([' '] ++ '=' :: ' ' :: '"' :: (s ++ [c])))) d.key
      (' ' :: '"' :: (s ++ [c])) :=
    @Assigns.mk ['\t'] _ [' '] _ (List.all_eq_true.mp (by decide)) d.key_head d.key_chars
      (List.all_eq_true.mp (by decide))
  have htrim : (Text.trimEnd (' ' :: '"' :: (s ++ [c]))).dropWhile Text.isBlank =
      '"' :: (s ++ [c]) := by
    rw [Text.trimEnd, ← List.cons_append, ← List.cons_append, Text.dropTrailing_append_of_not hc]
    rfl
  let r₁ : LineReader := { r with inSection := some d.sectionName }
  have hline := readLine_of_assigns (r := r₁) hr hassigns
  rw [htrim] at hline
  have hcompletes' : Completes {} (('"' :: (s ++ [c])) :: (more ++ rest)) d.value rest :=
    (hcompletes rest).of_eq (readValue_quote {} _)
  obtain ⟨n', hrest⟩ := ofLinesFrom_cons_of_completes hline hcompletes' (n + 1)
  refine ⟨n', r₁, hr, ?_⟩
  rw [Text.splitOn_of_not_mem (d.not_mem_header (.inl rfl)), hbody, List.singleton_append,
    Script.ofLinesFrom, d.readLine_header hr]
  exact hrest

theorem ofLinesFrom_declarations (hr : r.pending = none) (n : Nat) (ds : List Declaration) :
    Script.ofLinesFrom n r
      ((ds.flatMap fun d => ['[' :: d.header, d.body]).flatMap (Text.splitOn '\n')) =
    ⟨ds.map Declaration.assignment, none⟩ := by
  induction ds generalizing n r with
  | nil =>
    rw [List.flatMap_nil, List.flatMap_nil, Script.ofLinesFrom, hr]
    rfl
  | cons d ds ih =>
    obtain ⟨n', r', hr', hd⟩ := ofLinesFrom_declaration hr n d
      ((ds.flatMap fun d => ['[' :: d.header, d.body]).flatMap (Text.splitOn '\n'))
    simp only [List.flatMap_cons, List.map_cons, List.nil_append, List.cons_append]
    rw [hd, Script.behind, ih rfl]

/-! ## Files of declarations -/

theorem return_not_mem_writeValue (h : '\r' ∉ value) (breaks : Nat → Nat) :
    '\r' ∉ writeValue breaks value := by
  have hbreaks : ∀ n, '\r' ∉ writeBreaks n := by
    intro n
    simp [writeBreaks]
  induction value generalizing breaks with
  | nil => exact hbreaks _
  | cons c value ih =>
    have hc : '\r' ∉ writeChar c := by
      have hne : '\r' ≠ c := List.ne_of_not_mem_cons h
      rw [writeChar]
      split
      · simp [hne]
      · split
        · simp
        · simp [hne]
    rw [writeValue, List.mem_append, List.mem_append]
    exact not_or_intro (hbreaks _) (not_or_intro hc (ih (List.not_mem_of_not_mem_cons h) _))

theorem return_not_mem_render (ds : List Declaration) : '\r' ∉ render ds := by
  intro hmem
  obtain ⟨t, ht, hmem⟩ := List.mem_flatMap.mp hmem
  obtain ⟨d, -, ht⟩ := List.mem_flatMap.mp ht
  have hkey : '\r' ∉ d.key := fun hmem => absurd (d.key_chars '\r' hmem) (by decide)
  have hvalue := return_not_mem_writeValue d.value_chars d.breaks
  have hheader := d.not_mem_header (.inr rfl)
  simp only [List.mem_cons, List.not_mem_nil, or_false] at ht
  rcases ht with rfl | rfl
  · simp only [List.mem_append, List.mem_singleton, hheader, false_or] at hmem
    cases hmem
  · simp [Declaration.body, hkey, hvalue] at hmem

/-- **A file of declarations is read back as what it declares**: of each key, the value that is
declared last. -/
theorem settings_render {h : Host} {path : Text} {depth : Int} {ds : List Declaration}
    (hdepth : depth ≤ includeLimit) (hkeys : ∀ d ∈ ds, d.assignment.key ≠ includeKey)
    (hfile : h.files.read (h.fromCwd (filePath h path)) = .ok (Text.Utf8.encode (render ds))) :
    ∃ s, settings h path depth = .ok s ∧ s.Distinct ∧
      ∀ key, s.get? key = lastValue? (ds.map Declaration.assignment) key := by
  have hscript : Script.ofLines (Text.lines (render ds)) =
      ⟨ds.map Declaration.assignment, none⟩ := by
    rw [render, Text.lines_unlines]
    exact ofLinesFrom_declarations rfl 1 ds
  refine ⟨Settings.ofAssignments (ds.map Declaration.assignment), ?_,
    Settings.distinct_ofAssignments _, Settings.get?_ofAssignments _⟩
  obtain ⟨room, hroom⟩ : ∃ room, (includeLimit + 1 - depth).toNat = room + 1 :=
    ⟨(includeLimit - depth).toNat, by omega⟩
  have hlines := Host.readLines_of_read hfile
  rw [Text.unifyLineEnds_of_not_mem (return_not_mem_render ds)] at hlines
  rw [settings, hroom, ofFile_of_readLines hlines, hscript, carriedOut_of_ne]
  · rfl
  · intro a ha
    obtain ⟨d, hd, rfl⟩ := List.mem_map.mp ha
    exact hkeys d hd

/-- A key that is declared twice, and one of a subsection whose name is not plain; the last value
holds all that is escaped, and goes on in further lines. -/
def sampleDeclarations : List Declaration :=
  [{ name := "Core".toList, subsection := none, key := "excludesFile".toList,
     value := "x".toList, breaks := fun _ => 0, name_ne_nil := by decide,
     name_chars := List.all_iff_forall_prop.mp (by decide), subsection_chars := by decide,
     key_head := by decide, key_chars := List.all_iff_forall_prop.mp (by decide),
     value_chars := by decide },
   { name := "remote".toList, subsection := some "A \"] \\#".toList, key := "url".toList,
     value := [], breaks := fun _ => 1, name_ne_nil := by decide,
     name_chars := List.all_iff_forall_prop.mp (by decide), subsection_chars := by decide,
     key_head := by decide, key_chars := List.all_iff_forall_prop.mp (by decide),
     value_chars := by decide },
   { name := "core".toList, subsection := none, key := "excludesfile".toList,
     value := " [a]; # \"\\\n\t ".toList, breaks := fun i => if i = 4 then 2 else i % 2,
     name_ne_nil := by decide, name_chars := List.all_iff_forall_prop.mp (by decide),
     subsection_chars := by decide, key_head := by decide,
     key_chars := List.all_iff_forall_prop.mp (by decide), value_chars := by decide }]

/-- A host with a file of these declarations. -/
def sampleHost : Host :=
  { files := .ofEntries
      [("/c".toList, { kind := .file (Text.Utf8.encode (render sampleDeclarations)) })]
    cwd := "/".toList
    homes := ⟨none, []⟩
    configHome := none }

/-- Both keys have the values that they are declared to have last. -/
theorem settings_render_sampleDeclarations : ∃ s,
    settings sampleHost "/c".toList 0 = .ok s ∧
      s.get? "core.excludesfile".toList = some " [a]; # \"\\\n\t ".toList ∧
      s.get? "remote.A \"] \\#.url".toList = some [] := by
  obtain ⟨s, hs, -, hvalues⟩ := @settings_render sampleHost "/c".toList 0 sampleDeclarations
    (by decide) (by decide +kernel) (by decide +kernel)
  refine ⟨s, hs, ?_, ?_⟩
  · rw [hvalues]
    decide +kernel
  · rw [hvalues]
    decide +kernel

end GitConfig
end PathFilter
