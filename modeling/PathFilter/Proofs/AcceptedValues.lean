import Mathlib.Data.Bool.AllAny
import PathFilter.Proofs.ConfigLines
import PathFilter.Proofs.Includes

/-! # Values that are accepted

A value is well formed (`WellFormed`) if it stands where its text begins, up to the end of its line,
of the file or to a comment, and leaves no quote open: every quote is closed and every backslash
stands before the end of a line or of the file, or before a character that it escapes.

A file that can be read may hold values that are not well formed (`SlipsThrough`).  There are two
kinds of them: a value that ends with the file, behind a backslash and within quotes, and a value
with blanks behind a backslash at the end of its first line, which are gone when the backslash is
looked at.  **Apart from these, values that are accepted are well formed** (`accepted_iff`), and
none of these is (`SlipsThrough.not_wellFormed`).

The values of a file are given by where they begin (`HasValue`).  All that the file assigns is read
from these, if it is not the value of a key alone (`isReadIn_of_mem`).
-/

namespace PathFilter
namespace GitConfig

/-- The text of a line goes on in the next one, read with a quote open or not: a backslash that
is no part of an escape or a comment stands at its end. -/
inductive GoesOn : (quoted : Bool) → Text → Prop where
  | backslash (q : Bool) : GoesOn q ['\\']
  | escape {q : Bool} {c : Char} {t : Text} : c ∈ escapable → GoesOn q t → GoesOn q ('\\' :: c :: t)
  | quote {q : Bool} {t : Text} : GoesOn (!q) t → GoesOn q ('"' :: t)
  | plain {q : Bool} {c : Char} {t : Text} :
      c ≠ '\\' → c ≠ '"' → (q = false → c ∉ commentSigns) → GoesOn q t → GoesOn q (c :: t)

/-- The values of lines, each from behind its equals sign to the end of its line, with the lines
below it. -/
inductive HasValue : LineReader → List Text → Text → List Text → Prop where
  | here {r : LineReader} {line value : Text} {more : List Text} :
      r.pending = none → BeginsValue line value → HasValue r (line :: more) value more
  | later {r r' : LineReader} {a : Option Assignment} {line value : Text} {lines more : List Text} :
      r.readLine line = .ok (r', a) → HasValue r' lines value more →
        HasValue r (line :: lines) value more

/-- A value is well formed: it stands where its text begins and leaves no quote open. -/
def WellFormed (value : Text) (more : List Text) : Prop :=
  Stands false (value :: more) false

/-- A value stands in its lines, but only once the blanks at the end of the first are gone, or only
because the file ends before a quote is closed. -/
def SlipsThrough (value : Text) (more : List Text) : Prop :=
  Stands false (Text.trimEnd value :: more) true ∨
    Stands false (Text.trimEnd value :: more) false ∧
      Text.trimEnd value ≠ value ∧ GoesOn false (Text.trimEnd value)

variable {t u value blanks : Text} {lines more : List Text} {c : Char} {q left left' : Bool}
  {r : LineReader} {n : Nat}

/-! ## Blanks at the ends of a text -/

theorem not_mem_of_isBlank (hc : Text.isBlank c = true) :
    c ≠ '\\' ∧ c ≠ '"' ∧ c ∉ commentSigns := by
  refine ⟨?_, ?_, ?_⟩
  · rintro rfl
    cases hc
  · rintro rfl
    cases hc
  · intro hmem
    simp only [commentSigns, List.mem_cons, List.not_mem_nil, or_false] at hmem
    rcases hmem with rfl | rfl <;> cases hc

theorem not_mem_escapable_of_isBlank (hc : Text.isBlank c = true) : c ∉ escapable := by
  intro hmem
  simp only [escapable, List.mem_cons, List.not_mem_nil, or_false] at hmem
  rcases hmem with rfl | rfl | rfl | rfl | rfl <;> cases hc

theorem isBlank_of_eq_cons (hblanks : ∀ c ∈ blanks, Text.isBlank c = true) (h : blanks = c :: u) :
    Text.isBlank c = true :=
  hblanks c (h ▸ List.mem_cons_self)

theorem Stands.blanks_append (hblanks : ∀ c ∈ blanks, Text.isBlank c = true)
    (h : Stands q (t :: more) left) : Stands q ((blanks ++ t) :: more) left := by
  induction blanks with
  | nil => exact h
  | cons c blanks ih =>
    obtain ⟨hslash, hquote, hcomment⟩ := not_mem_of_isBlank (hblanks c List.mem_cons_self)
    exact .plain hslash hquote (fun _ => hcomment)
      (ih fun d hd => hblanks d (List.mem_cons_of_mem c hd))

/-- Blanks at the end of a line make no difference to a value, unless the line goes on. -/
theorem Stands.append_blanks (hblanks : ∀ c ∈ blanks, Text.isBlank c = true)
    (h : Stands q (t :: more) left) : Stands q ((t ++ blanks) :: more) left ∨ GoesOn q t := by
  generalize hlines : t :: more = lines at h
  induction h generalizing t with
  | fileEnd q => cases hlines
  | lineEnd more =>
    cases hlines
    have hend : Stands false ((blanks ++ []) :: more) false :=
      .blanks_append hblanks (.lineEnd more)
    rw [List.append_nil] at hend
    exact .inl hend
  | comment u more hc =>
    cases hlines
    exact .inl (.comment (u ++ blanks) more hc)
  | goesOn _ =>
    cases hlines
    exact .inr (.backslash _)
  | escape hc _ ih =>
    cases hlines
    exact (ih rfl).imp (.escape hc) (.escape hc)
  | quote _ ih =>
    cases hlines
    exact (ih rfl).imp .quote .quote
  | plain hslash hquote hcomment _ ih =>
    cases hlines
    exact (ih rfl).imp (.plain hslash hquote hcomment) (.plain hslash hquote hcomment)

/-- No value stands in a line in which a blank follows the backslash at its end. -/
theorem GoesOn.not_stands (h : GoesOn q t) (hc : Text.isBlank c = true) :
    ¬ Stands q ((t ++ c :: u) :: more) left := by
  induction h with
  | backslash q =>
    intro hstands
    cases hstands with
    | comment _ _ hsign => simp [commentSigns] at hsign
    | escape hmem _ => exact not_mem_escapable_of_isBlank hc hmem
    | plain hslash => exact hslash rfl
  | escape _ _ ih =>
    intro hstands
    cases hstands with
    | comment _ _ hsign => simp [commentSigns] at hsign
    | escape _ hrest => exact ih hrest
    | plain hslash => exact hslash rfl
  | quote _ ih =>
    intro hstands
    cases hstands with
    | comment _ _ hsign => simp [commentSigns] at hsign
    | quote hrest => exact ih hrest
    | plain _ hquote => exact hquote rfl
  | @plain q d t hslash hquote hcomment _ ih =>
    intro hstands
    rw [List.cons_append] at hstands
    generalize t ++ c :: u = w at hstands ih
    cases hstands with
    | comment _ _ hsign => exact hcomment rfl hsign
    | goesOn _ => exact hslash rfl
    | escape _ _ => exact hslash rfl
    | quote _ => exact hquote rfl
    | plain _ _ _ hrest => exact ih hrest

/-- Whether a value leaves a quote open can be told from where it stands. -/
theorem Stands.left_unique (h : Stands q lines left) (h' : Stands q lines left') :
    left = left' := by
  induction h with
  | fileEnd q =>
    cases h'
    rfl
  | lineEnd more =>
    cases h'
    rfl
  | comment t more hc =>
    cases h' with
    | comment => rfl
    | goesOn => simp [commentSigns] at hc
    | escape => simp [commentSigns] at hc
    | quote => simp [commentSigns] at hc
    | plain _ _ hcomment => exact absurd hc (hcomment rfl)
  | goesOn _ ih =>
    cases h' with
    | comment _ _ hc => simp [commentSigns] at hc
    | goesOn hmore => exact ih hmore
    | plain hslash => exact absurd rfl hslash
  | escape _ _ ih =>
    cases h' with
    | comment _ _ hc => simp [commentSigns] at hc
    | escape _ hrest => exact ih hrest
    | plain hslash => exact absurd rfl hslash
  | quote _ ih =>
    cases h' with
    | comment _ _ hc => simp [commentSigns] at hc
    | quote hrest => exact ih hrest
    | plain _ hquote => exact absurd rfl hquote
  | plain hslash hquote hcomment _ ih =>
    cases h' with
    | comment _ _ hc => exact absurd hc (hcomment rfl)
    | goesOn => exact absurd rfl hslash
    | escape => exact absurd rfl hslash
    | quote => exact absurd rfl hquote
    | plain _ _ _ hrest => exact ih hrest

/-! ## Accepted and well formed -/

/-- A value that only slips through is not well formed. -/
theorem SlipsThrough.not_wellFormed (h : SlipsThrough value more) : ¬ WellFormed value more := by
  intro hvalue
  obtain ⟨blanks, hblanks, heq⟩ := Text.exists_trimEnd_append value
  have hno : GoesOn false (Text.trimEnd value) → blanks = [] := by
    intro hgoes
    cases blanks with
    | nil => rfl
    | cons c blanks =>
      rw [WellFormed, heq] at hvalue
      exact absurd hvalue (hgoes.not_stands (hblanks c List.mem_cons_self))
  rcases h with hopen | ⟨-, hne, hgoes⟩
  · rcases hopen.append_blanks hblanks with hopen' | hgoes
    · rw [← heq] at hopen'
      cases hopen'.left_unique hvalue
    · rw [hno hgoes, List.append_nil] at heq
      rw [← heq] at hopen
      cases hopen.left_unique hvalue
  · rw [hno hgoes, List.append_nil] at heq
    exact hne heq.symm

/-- A well-formed value stands in its lines without the blanks at the end of the first as well. -/
theorem Stands.of_append_blanks (hblanks : ∀ c ∈ blanks, Text.isBlank c = true)
    (h : Stands q ((t ++ blanks) :: more) left) : ∃ left, Stands q (t :: more) left := by
  generalize hlines : (t ++ blanks) :: more = lines at h
  induction h generalizing t blanks with
  | fileEnd q => cases hlines
  | lineEnd more' =>
    obtain ⟨hnil, rfl⟩ := List.cons.inj hlines
    rw [List.append_eq_nil_iff.mp hnil |>.1]
    exact ⟨false, .lineEnd more⟩
  | @comment c u more' hc =>
    obtain ⟨hline, rfl⟩ := List.cons.inj hlines
    cases t with
    | nil => exact absurd hc (not_mem_of_isBlank (isBlank_of_eq_cons hblanks hline)).2.2
    | cons d t =>
      cases hline
      exact ⟨false, .comment t more hc⟩
  | @goesOn q left more' hmore _ =>
    obtain ⟨hline, rfl⟩ := List.cons.inj hlines
    cases t with
    | nil => exact absurd rfl (not_mem_of_isBlank (isBlank_of_eq_cons hblanks hline)).1
    | cons d t =>
      obtain ⟨rfl, hnil⟩ := List.cons.inj hline
      rw [List.append_eq_nil_iff.mp hnil |>.1]
      exact ⟨left, .goesOn hmore⟩
  | @escape q left c u more' hc _ ih =>
    obtain ⟨hline, rfl⟩ := List.cons.inj hlines
    match t, hline with
    | [], hline => exact absurd rfl (not_mem_of_isBlank (isBlank_of_eq_cons hblanks hline)).1
    | [_], hline =>
      have hblank : Text.isBlank c = true := isBlank_of_eq_cons hblanks (List.cons.inj hline).2
      exact absurd hc (not_mem_escapable_of_isBlank hblank)
    | _ :: _ :: t, hline =>
      cases hline
      obtain ⟨left, hrest⟩ := ih hblanks rfl
      exact ⟨left, .escape hc hrest⟩
  | @quote q left u more' _ ih =>
    obtain ⟨hline, rfl⟩ := List.cons.inj hlines
    cases t with
    | nil => exact absurd rfl (not_mem_of_isBlank (isBlank_of_eq_cons hblanks hline)).2.1
    | cons d t =>
      cases hline
      obtain ⟨left, hrest⟩ := ih hblanks rfl
      exact ⟨left, .quote hrest⟩
  | @plain q left c u more' hslash hquote hcomment _ ih =>
    obtain ⟨hline, rfl⟩ := List.cons.inj hlines
    cases t with
    | nil =>
      -- the value goes on within the blanks
      rw [List.nil_append] at hline
      exact ih (fun d hd => hblanks d (hline ▸ List.mem_cons_of_mem c hd)) rfl
    | cons d t =>
      cases hline
      obtain ⟨left, hrest⟩ := ih hblanks rfl
      exact ⟨left, .plain hslash hquote hcomment hrest⟩

/-- **A value is accepted if it is well formed, and otherwise only if it slips through.** -/
theorem accepted_iff :
    (∃ left, Stands false (Text.trimEnd value :: more) left) ↔
      WellFormed value more ∨ SlipsThrough value more := by
  obtain ⟨blanks, hblanks, heq⟩ := Text.exists_trimEnd_append value
  constructor
  · rintro ⟨left, h⟩
    cases left with
    | true => exact .inr (.inl h)
    | false =>
      by_cases hne : Text.trimEnd value = value
      · rw [hne] at h
        exact .inl h
      · rcases h.append_blanks hblanks with hvalue | hgoes
        · rw [← heq] at hvalue
          exact .inl hvalue
        · exact .inr (.inr ⟨h, hne, hgoes⟩)
  · rintro (hvalue | hopen | ⟨h, -⟩)
    · rw [WellFormed, heq] at hvalue
      exact hvalue.of_append_blanks hblanks
    · exact ⟨true, hopen⟩
    · exact ⟨false, h⟩

/-! ## Values of files -/

/-- **Where a script has no fault, every value in its lines stands there without the blanks at the
end of its first line.** -/
theorem exists_stands_of_fault (h : HasValue r lines value more)
    (hfault : (Script.ofLinesFrom n r lines).fault = none) :
    ∃ left, Stands false (Text.trimEnd value :: more) left := by
  induction h generalizing n with
  | later hline _ ih =>
    obtain ⟨_, _, hline', hrest⟩ := exists_readLine_of_fault hfault
    cases hline.symm.trans hline'
    exact ih hrest
  | @here r line value more hr hbegins =>
    obtain ⟨r', a, hline, hrest⟩ := exists_readLine_of_fault hfault
    rcases readLine_of_beginsValue hr hbegins with hnone | ⟨r₁, key, hvalue⟩
    · cases hnone.symm.trans hline
    have hcompletes := exists_completes_of_continueValue (hvalue.symm.trans hline)
      fun v' hv' => exists_completes_of_fault hv' hrest
    obtain ⟨left, hleft⟩ := exists_completes_iff.mp hcompletes
    have hblanks := hleft.blanks_append
      fun c hc => List.mem_takeWhile_imp (p := Text.isBlank) (l := Text.trimEnd value) hc
    rw [List.takeWhile_append_dropWhile] at hblanks
    exact ⟨left, hblanks⟩

/-- A text has been read from one of the values of lines. -/
def IsReadIn (r : LineReader) (lines : List Text) (x : Text) : Prop :=
  ∃ value more rest, HasValue r lines value more ∧
    Completes {} ((Text.trimEnd value).dropWhile Text.isBlank :: more) x rest

theorem IsReadIn.later {r' : LineReader} {a : Option Assignment} {line x : Text}
    (hline : r.readLine line = .ok (r', a)) (h : IsReadIn r' lines x) :
    IsReadIn r (line :: lines) x := by
  obtain ⟨value, more, rest, hvalue, hread⟩ := h
  exact ⟨value, more, rest, .later hline hvalue, hread⟩

/-- What lines assign has been read from one of their values, or from one that they go on with, if
it is not the value of a key alone. -/
theorem isReadIn_of_mem {a : Assignment}
    (ha : a ∈ (Script.ofLinesFrom n r lines).assignments) :
    a.value = flagValue ∨ IsReadIn r lines a.value ∨
      ∃ key v rest, r.pending = some (key, v) ∧ Completes v lines a.value rest := by
  induction lines generalizing r n with
  | nil =>
    rw [Script.ofLinesFrom] at ha
    obtain ⟨⟨key, v⟩, hr, rfl⟩ := Option.map_eq_some_iff.mp (Option.mem_toList.mp ha)
    exact .inr (.inr ⟨key, v, [], hr, .fileEnd v⟩)
  | cons line lines ih =>
    rw [Script.ofLinesFrom] at ha
    cases hline : r.readLine line with
    | error cause =>
      rw [hline] at ha
      cases ha
    | ok step =>
      obtain ⟨r', x⟩ := step
      rw [hline] at ha
      -- a value that is read on in this line, whether or not it begins here
      have hcontinue : ∀ {r₁ : LineReader} {key v t}, r₁.continueValue key v t = .ok (r', x) →
          a.value = flagValue ∨ IsReadIn r' lines a.value ∨
            ∃ rest, Completes v (t :: lines) a.value rest := by
        intro r₁ key v t hvalue
        rcases continueValue_cases hvalue with ⟨y, hread, hr', rfl⟩ | ⟨v', hread, hr', rfl⟩
        · rcases List.mem_append.mp ha with ha | ha
          · cases List.mem_singleton.mp ha
            exact .inr (.inr ⟨lines, .here hread⟩)
          · rcases ih ha with hflag | hin | ⟨_, _, _, hpending, -⟩
            · exact .inl hflag
            · exact .inr (.inl hin)
            · cases hr'.symm.trans hpending
        · rcases ih ha with hflag | hin | ⟨_, _, rest, hpending, hrest⟩
          · exact .inl hflag
          · exact .inr (.inl hin)
          · cases hr'.symm.trans hpending
            exact .inr (.inr ⟨rest, .next hread hrest⟩)
      cases hr : r.pending with
      | some value =>
        obtain ⟨key, v⟩ := value
        have hvalue := hline
        rw [LineReader.readLine, hr] at hvalue
        rcases hcontinue hvalue with hflag | hin | ⟨rest, hrest⟩
        · exact .inl hflag
        · exact .inr (.inl (hin.later hline))
        · exact .inr (.inr ⟨key, v, rest, rfl, hrest⟩)
      | none =>
        rcases exists_beginsValue hr hline with ⟨hr', hflag⟩ | ⟨value, hbegins⟩
        · rcases List.mem_append.mp ha with ha | ha
          · exact .inl (hflag a (Option.mem_toList.mp ha))
          · rcases ih ha with hflag | hin | ⟨_, _, _, hpending, -⟩
            · exact .inl hflag
            · exact .inr (.inl (hin.later hline))
            · cases hr'.symm.trans hpending
        · rcases readLine_of_beginsValue hr hbegins with hnone | ⟨r₁, key, hvalue⟩
          · cases hnone.symm.trans hline
          rcases hcontinue (hvalue.symm.trans hline) with hflag | hin | ⟨rest, hrest⟩
          · exact .inl hflag
          · exact .inr (.inl (hin.later hline))
          · exact .inr (.inl ⟨value, lines, rest, .here hr hbegins, hrest⟩)

/-- **Values are accepted only if they are well formed, or slip through.**  What a file assigns, or
one that it includes, is read from the values that stand in it, if it is not that of a key alone.
If the file can be read, each of these values is well formed exactly if it does not slip through.  A
file with a value that neither is well formed nor slips through comes to a fault, if no errors of
the file system get in its way. -/
theorem settings_values_wellFormed {h : Host} {path file : Text} (depth : Nat)
    (hreach : Relation.ReflTransGen (Includes h) (filePath h path) file) :
    (∀ a ∈ (Script.ofLines (h.linesAt file)).assignments,
      a.value = flagValue ∨ IsReadIn {} (h.linesAt file) a.value) ∧
    ∀ value more, HasValue {} (h.linesAt file) value more →
      (∀ s, settings h path depth = .ok s →
        (WellFormed value more ↔ ¬ SlipsThrough value more)) ∧
      (h.files.Mild → ¬ WellFormed value more → ¬ SlipsThrough value more →
        ∃ e, settings h path depth = .error (.gitConfig e)) := by
  refine ⟨fun a ha => ?_, fun value more hvalue => ?_⟩
  · rcases isReadIn_of_mem ha with hflag | hin | ⟨_, _, _, hpending, -⟩
    · exact .inl hflag
    · exact .inr hin
    · cases hpending
  have hread : ∀ s, settings h path depth = .ok s →
      WellFormed value more ∨ SlipsThrough value more := by
    intro s hs
    obtain ⟨room, t, ht⟩ := exists_ofFile_of_reached hs hreach
    exact accepted_iff.mp (exists_stands_of_fault hvalue (fault_eq_none_of_ofFile ht))
  refine ⟨fun s hs => ?_, fun hm hill hslip => ?_⟩
  · exact ⟨fun hwell hslip => hslip.not_wellFormed hwell, (hread s hs).resolve_right⟩
  · cases hs : settings h path depth with
    | ok s => exact absurd (hread s hs) (not_or_intro hill hslip)
    | error failure =>
      obtain ⟨e, rfl⟩ := exists_of_ofFile_eq_error hm hs
      exact ⟨e, rfl⟩

/-- Files with values: one that includes another, one in which a quote is not closed, and two with
values that slip through. -/
def valueHost : Host :=
  { files := .ofEntries
      [("/c/main".toList, textFile "[include]\npath = part\n"),
       ("/c/part".toList, textFile "[a]\n\tb = \"x # \\\n y\" # z\n"),
       ("/c/bad".toList, textFile "[a]\nb = \"x\n"),
       ("/c/open".toList, textFile "[a]\nb = \"x\\"),
       ("/c/cut".toList, textFile "[a]\nb = x\\ \ny\n")]
    cwd := "/".toList
    homes := ⟨none, []⟩
    configHome := none }

/-- The value behind a header on its own line. -/
theorem hasValue_below_header {lead : Text} (hlead : lead.all Text.isBlank = true) (value : Text)
    (more : List Text) :
    HasValue {} ("[a]".toList :: (lead ++ "b =".toList ++ value) :: more) value more := by
  have hheader : LineReader.readLine {} "[a]".toList =
      .ok (⟨some "a".toList, none⟩, none) := by decide +kernel
  have hline : lead ++ "b =".toList ++ value = lead ++ (['b'] ++ ([' '] ++ '=' :: value)) := by
    simp
  have hassigns : Assigns (lead ++ (['b'] ++ ([' '] ++ '=' :: value))) ['b'] value :=
    .mk (List.all_eq_true.mp hlead) (by decide) (List.all_iff_forall_prop.mp (by decide))
      (List.all_eq_true.mp (by decide))
  rw [hline]
  exact .later hheader (.here rfl (.plain hassigns))

/-- A value of an included file, which goes on in a second line; and an open quote, which comes to a
fault. -/
theorem settings_values_of_valueHost :
    (∃ s, settings valueHost "/c/main".toList (0 : Nat) = .ok s ∧
      (WellFormed " \"x # \\".toList [" y\" # z".toList] ↔
        ¬ SlipsThrough " \"x # \\".toList [" y\" # z".toList])) ∧
    ∃ e, settings valueHost "/c/bad".toList (0 : Nat) = .error (.gitConfig e) := by
  constructor
  · obtain ⟨s, hs, -⟩ : ∃ s, settings valueHost "/c/main".toList (0 : Nat) = .ok s ∧
        (fun _ => true) s = true := exists_eq_ok_of_any (by decide +kernel)
    have hinc : Includes valueHost (filePath valueHost "/c/main".toList) "/c/part".toList :=
      ⟨⟨includeKey, "part".toList⟩, by decide +kernel, rfl, by decide +kernel⟩
    have hvalue : HasValue {} (valueHost.linesAt "/c/part".toList) " \"x # \\".toList
        [" y\" # z".toList] := by
      have hlines : valueHost.linesAt "/c/part".toList =
          ["[a]".toList, "\tb = \"x # \\".toList, " y\" # z".toList] := by decide +kernel
      rw [hlines]
      exact @hasValue_below_header "\t".toList (by decide) " \"x # \\".toList
        [" y\" # z".toList]
    exact ⟨s, hs, ((settings_values_wellFormed 0 (.single hinc)).2 _ _ hvalue).1 s hs⟩
  · have hlines : valueHost.linesAt (filePath valueHost "/c/bad".toList) =
        ["[a]".toList, "b = \"x".toList] := by decide +kernel
    have hvalue : HasValue {} (valueHost.linesAt (filePath valueHost "/c/bad".toList))
        " \"x".toList [] := by
      rw [hlines]
      exact @hasValue_below_header [] rfl " \"x".toList []
    have hread : readValue {} (Text.trimEnd " \"x".toList) = .error .unterminatedQuote := by
      decide +kernel
    have hill : ¬ ∃ left, Stands false [Text.trimEnd " \"x".toList] left :=
      not_stands_of_readValue hread
    rw [accepted_iff, not_or] at hill
    have hc : valueHost.files.Calm := by decide +kernel
    exact ((settings_values_wellFormed 0 .refl).2 _ _ hvalue).2 hc.mild hill.1 hill.2

/-- The values that slip through do so: a quote that is left open behind a backslash at the end of
the file, and a backslash before a blank at the end of a line. -/
theorem slipping_values_accepted :
    ((∃ s, settings valueHost "/c/open".toList (0 : Nat) = .ok s) ∧
      HasValue {} (valueHost.linesAt "/c/open".toList) " \"x\\".toList [] ∧
        ¬ WellFormed " \"x\\".toList []) ∧
    (∃ s, settings valueHost "/c/cut".toList (0 : Nat) = .ok s) ∧
      HasValue {} (valueHost.linesAt "/c/cut".toList) " x\\ ".toList ["y".toList] ∧
        ¬ WellFormed " x\\ ".toList ["y".toList] := by
  have hread : ∀ path ∈ ["/c/open".toList, "/c/cut".toList],
      (settings valueHost path (0 : Nat)).toOption.any (fun _ => true) = true := by decide +kernel
  refine ⟨⟨?_, ?_, ?_⟩, ?_, ?_, ?_⟩
  · obtain ⟨s, hs, -⟩ := exists_eq_ok_of_any (hread _ List.mem_cons_self)
    exact ⟨s, hs⟩
  · have hlines : valueHost.linesAt "/c/open".toList =
        ["[a]".toList, "b = \"x\\".toList] := by decide +kernel
    rw [hlines]
    exact @hasValue_below_header [] rfl " \"x\\".toList []
  · refine SlipsThrough.not_wellFormed (.inl ?_)
    have htrim : Text.trimEnd " \"x\\".toList = [' ', '"', 'x', '\\'] := by decide +kernel
    rw [htrim]
    exact .plain (by decide) (by decide) (by decide)
      (.quote (.plain (by decide) (by decide) (by decide) (.goesOn (.fileEnd true))))
  · obtain ⟨s, hs, -⟩ := exists_eq_ok_of_any (hread _ (List.mem_cons_of_mem _ List.mem_cons_self))
    exact ⟨s, hs⟩
  · have hlines : valueHost.linesAt "/c/cut".toList =
        ["[a]".toList, "b = x\\ ".toList, "y".toList] := by decide +kernel
    rw [hlines]
    exact @hasValue_below_header [] rfl " x\\ ".toList ["y".toList]
  · refine SlipsThrough.not_wellFormed (.inr ?_)
    have htrim : Text.trimEnd " x\\ ".toList = [' ', 'x', '\\'] := by decide +kernel
    have hnext : "y".toList = ['y'] := by decide +kernel
    rw [htrim, hnext]
    exact ⟨.plain (by decide) (by decide) (by decide) (.plain (by decide) (by decide) (by decide)
      (.goesOn (.plain (by decide) (by decide) (by decide) (.lineEnd [])))),
      by decide, .plain (by decide) (by decide) (by decide)
        (.plain (by decide) (by decide) (by decide) (.backslash false))⟩

end GitConfig
end PathFilter
