import PathFilter.GitConfig.Script
import PathFilter.Proofs.Outcome

/-! # Values in a configuration file

A value is read character by character, and goes on in the next line where its line ends in a
backslash.  So it takes up one line or several, and is complete in the last of them (`Completes`).

The lines that a value can stand in are given by a grammar (`Stands`), which knows neither the
characters that have been read nor what they stand for, but only whether a quote is open.
**A value can be read exactly if it stands where it is read** (`exists_completes_iff`).  The grammar
says in one place what ends a value: a line may not end in an open quote, and neither may a comment
begin there, but the last line of the file may end in one behind a backslash.
-/

namespace PathFilter
namespace GitConfig

/-- A value whose reading goes on with the given lines is complete, with lines left behind it. -/
inductive Completes : ValueReader → List Text → Text → List Text → Prop where
  | fileEnd (v : ValueReader) : Completes v [] v.read []
  | here {v : ValueReader} {t x : Text} {more : List Text} :
      readValue v t = .ok (.complete x) → Completes v (t :: more) x more
  | next {v v' : ValueReader} {t x : Text} {more rest : List Text} :
      readValue v t = .ok (.goesOn v') → Completes v' more x rest → Completes v (t :: more) x rest

/-- The characters that may stand behind a backslash. -/
def escapable : List Char := ['\\', '"', 'n', 't', 'b']

/-- The characters that begin a comment. -/
def commentSigns : List Char := ['#', ';']

/-- A value stands in lines, from a place in the first of them on, with a quote open there if
`quoted` says so.  It ends at a comment or at the end of a line, neither of which ends it inside of
quotes; a backslash stands before an escapable character or at the end of its line.  The value
leaves a quote open, as `left` says, only if there is no line behind such a backslash. -/
inductive Stands : (quoted : Bool) → List Text → (left : Bool) → Prop where
  | fileEnd (q : Bool) : Stands q [] q
  | lineEnd (more : List Text) : Stands false ([] :: more) false
  | comment {c : Char} (t : Text) (more : List Text) :
      c ∈ commentSigns → Stands false ((c :: t) :: more) false
  | goesOn {q left : Bool} {more : List Text} :
      Stands q more left → Stands q (['\\'] :: more) left
  | escape {q left : Bool} {c : Char} {t : Text} {more : List Text} :
      c ∈ escapable → Stands q (t :: more) left → Stands q (('\\' :: c :: t) :: more) left
  | quote {q left : Bool} {t : Text} {more : List Text} :
      Stands (!q) (t :: more) left → Stands q (('"' :: t) :: more) left
  | plain {q left : Bool} {c : Char} {t : Text} {more : List Text} :
      c ≠ '\\' → c ≠ '"' → (q = false → c ∉ commentSigns) → Stands q (t :: more) left →
        Stands q ((c :: t) :: more) left

variable {v v' : ValueReader} {t t' x key : Text} {lines more rest : List Text} {c : Char}
  {q left : Bool} {r : LineReader} {n : Nat}

/-! ## Values that are read from line to line -/

/-- What has been read of a value by way of another text is the same. -/
theorem Completes.of_eq (heq : readValue v t = readValue v' t')
    (h : Completes v' (t' :: more) x rest) : Completes v (t :: more) x rest := by
  cases h with
  | here h => exact .here (heq.trans h)
  | next h hnext => exact .next (heq.trans h) hnext

theorem continueValue_complete (hread : readValue v t = .ok (.complete x)) (r : LineReader)
    (key : Text) : r.continueValue key v t = .ok ({ r with pending := none }, some ⟨key, x⟩) := by
  rw [LineReader.continueValue, hread]
  rfl

theorem continueValue_goesOn (hread : readValue v t = .ok (.goesOn v')) (r : LineReader)
    (key : Text) : r.continueValue key v t = .ok ({ r with pending := some (key, v') }, none) := by
  rw [LineReader.continueValue, hread]
  rfl

/-- The script of what is left behind a value, after the value. -/
def Script.behind (n : Nat) (r : LineReader) (rest : List Text) (a : Assignment) : Script :=
  let s := Script.ofLinesFrom n { r with pending := none } rest
  { s with assignments := a :: s.assignments }

/-- **A value that is complete is the first assignment of the lines that it goes on with**, and the
script goes on with those left behind it. -/
theorem ofLinesFrom_of_completes (h : Completes v lines x rest)
    (hr : r.pending = some (key, v)) (n : Nat) : ∃ n',
      Script.ofLinesFrom n r lines = Script.behind n' r rest ⟨key, x⟩ := by
  induction h generalizing r n with
  | fileEnd v =>
    refine ⟨n, ?_⟩
    rw [Script.ofLinesFrom, hr]
    rfl
  | here hread =>
    refine ⟨n + 1, ?_⟩
    rw [Script.ofLinesFrom, LineReader.readLine, hr]
    simp only [continueValue_complete hread]
    rfl
  | @next v v' t x more rest hread _ ih =>
    obtain ⟨n', hrest⟩ := ih (r := { r with pending := some (key, v') }) rfl (n + 1)
    refine ⟨n', ?_⟩
    rw [Script.ofLinesFrom, LineReader.readLine, hr]
    simp only [continueValue_goesOn hread, hrest]
    rfl

/-- A value that begins in a line and is complete there or later is the first assignment of it and
the lines below. -/
theorem ofLinesFrom_cons_of_completes {r' : LineReader} {line : Text}
    (hline : r.readLine line = r'.continueValue key v t) (h : Completes v (t :: more) x rest)
    (n : Nat) : ∃ n',
      Script.ofLinesFrom n r (line :: more) = Script.behind n' r' rest ⟨key, x⟩ := by
  cases h with
  | here hread =>
    refine ⟨n + 1, ?_⟩
    rw [Script.ofLinesFrom, hline]
    simp only [continueValue_complete hread]
    rfl
  | @next _ v' _ _ _ _ hread h =>
    obtain ⟨n', hrest⟩ :=
      ofLinesFrom_of_completes h (r := { r' with pending := some (key, v') }) rfl (n + 1)
    refine ⟨n', ?_⟩
    rw [Script.ofLinesFrom, hline]
    simp only [continueValue_goesOn hread, hrest]
    rfl

/-- A script has no fault if no line of it has one. -/
theorem exists_readLine_of_fault (h : (Script.ofLinesFrom n r (t :: more)).fault = none) :
    ∃ r' a, r.readLine t = .ok (r', a) ∧ (Script.ofLinesFrom (n + 1) r' more).fault = none := by
  rw [Script.ofLinesFrom] at h
  cases hread : r.readLine t with
  | error cause => rw [hread] at h; cases h
  | ok step => exact ⟨step.1, step.2, rfl, by rw [hread] at h; exact h⟩

/-- What has been read of a line of a value is the whole value, or there is more of it to come. -/
theorem continueValue_cases {r' : LineReader} {a : Option Assignment}
    (h : r.continueValue key v t = .ok (r', a)) :
    (∃ x, readValue v t = .ok (.complete x) ∧ r'.pending = none ∧ a = some ⟨key, x⟩) ∨
      ∃ v', readValue v t = .ok (.goesOn v') ∧ r'.pending = some (key, v') ∧ a = none := by
  rw [LineReader.continueValue] at h
  obtain ⟨step, hread, h⟩ := bind_eq_ok_iff.mp h
  cases step with
  | complete x =>
    cases h
    exact .inl ⟨x, hread, rfl, rfl⟩
  | goesOn v' =>
    cases h
    exact .inr ⟨v', hread, rfl, rfl⟩

/-- A value is complete if it is so in one line, or if it goes on and is complete later. -/
theorem exists_completes_of_continueValue {r' : LineReader} {a : Option Assignment}
    (h : r.continueValue key v t = .ok (r', a))
    (hmore : ∀ v', r'.pending = some (key, v') → ∃ x rest, Completes v' more x rest) :
    ∃ x rest, Completes v (t :: more) x rest := by
  rcases continueValue_cases h with ⟨x, hread, -, -⟩ | ⟨v', hread, hr', -⟩
  · exact ⟨x, more, .here hread⟩
  · obtain ⟨x, rest, hrest⟩ := hmore v' hr'
    exact ⟨x, rest, .next hread hrest⟩

/-- Where a script has no fault, a value that it goes on with is complete. -/
theorem exists_completes_of_fault (hr : r.pending = some (key, v))
    (h : (Script.ofLinesFrom n r lines).fault = none) : ∃ x rest, Completes v lines x rest := by
  induction lines generalizing r v n with
  | nil => exact ⟨_, _, .fileEnd v⟩
  | cons t more ih =>
    obtain ⟨r', a, hline, hmore⟩ := exists_readLine_of_fault h
    rw [LineReader.readLine, hr] at hline
    exact exists_completes_of_continueValue hline fun v' hr' => ih hr' hmore

/-! ## Reading and standing -/

/-- A character that begins neither an escape nor the last character of a line is no backslash. -/
theorem ne_backslash (hend : c = '\\' → t = [] → False)
    (hescape : ∀ d u, c = '\\' → t = d :: u → False) : c ≠ '\\' := by
  rintro rfl
  cases t with
  | nil => exact hend rfl rfl
  | cons d u => exact hescape d u rfl rfl

theorem exists_readValue_escape (hc : c ∈ escapable) (v : ValueReader) (t : Text) :
    ∃ meant, readValue v ('\\' :: c :: t) = readValue (v.take [meant]) t := by
  simp only [escapable, List.mem_cons, List.not_mem_nil, or_false] at hc
  rcases hc with rfl | rfl | rfl | rfl | rfl <;> exact ⟨_, rfl⟩

theorem readValue_quote (v : ValueReader) (t : Text) :
    readValue v ('"' :: t) = readValue v.toggle t := by
  rw [readValue.eq_4 v '"' t (by simp) (by simp), if_pos rfl]

theorem mem_escapable_of_lookup {meant : Char} (h : escapes.lookup c = some meant) :
    c ∈ escapable := by
  obtain ⟨as, bs, heq, -⟩ := List.lookup_eq_some_iff.mp h
  have hmem : (c, meant) ∈ escapes := heq ▸ List.mem_append_right as List.mem_cons_self
  exact List.mem_map_of_mem (f := (·.1)) hmem

theorem isCommentSign_eq (c : Char) : isCommentSign c = decide (c ∈ commentSigns) := by
  simp [isCommentSign, commentSigns]

theorem readValue_comment (hc : c ∈ commentSigns) (hq : v.quoted = false) (t : Text) :
    readValue v (c :: t) = .ok (.complete v.read) := by
  simp only [commentSigns, List.mem_cons, List.not_mem_nil, or_false] at hc
  rcases hc with rfl | rfl <;> simp [readValue, hq, isCommentSign]

/-- A character that is neither a backslash nor a quote is taken or held, unless it begins a
comment. -/
theorem exists_readValue_plain (hslash : c ≠ '\\') (hquote : c ≠ '"')
    (hcomment : v.quoted = false → c ∉ commentSigns) (t : Text) :
    ∃ v', v'.quoted = v.quoted ∧ readValue v (c :: t) = readValue v' t := by
  rw [readValue.eq_4 v c t (fun h => absurd h hslash) (fun _ _ h => absurd h hslash), if_neg hquote]
  have hsign : (!v.quoted && isCommentSign c) = false := by
    cases hq : v.quoted with
    | true => rfl
    | false => simpa [isCommentSign_eq] using hcomment hq
  rw [hsign, if_neg Bool.false_ne_true]
  split
  · refine ⟨v.hold c, ?_, rfl⟩
    rw [ValueReader.hold]
    split <;> rfl
  · exact ⟨v.take [c], rfl, rfl⟩

theorem quoted_hold (v : ValueReader) (c : Char) : (v.hold c).quoted = v.quoted := by
  rw [ValueReader.hold]
  split <;> rfl

/-- The rest of a line from which a value has been read stands in that line: if the value is
complete it stands there as a whole, and if not then together with the lines that it goes on in. -/
def ValueStep.StandsIn (quoted : Bool) (t : Text) : ValueStep → Prop
  | .complete _ => ∀ more, Stands quoted (t :: more) false
  | .goesOn v => ∀ more left, Stands v.quoted more left → Stands quoted (t :: more) left

theorem ValueStep.StandsIn.mono {step : ValueStep} {q q' : Bool} (h : step.StandsIn q' t')
    (hmono : ∀ more left, Stands q' (t' :: more) left → Stands q (t :: more) left) :
    step.StandsIn q t := by
  cases step with
  | complete x => exact fun more => hmono more false (h more)
  | goesOn v => exact fun more left hmore => hmono more left (h more left hmore)

/-- What is read from a line stands in it. -/
theorem standsIn_of_readValue {step : ValueStep} :
    readValue v t = .ok step → step.StandsIn v.quoted t := by
  have plain : ∀ {v : ValueReader} {c : Char} {rest : Text},
      (c = '\\' → rest = [] → False) → (∀ d r, c = '\\' → rest = d :: r → False) → c ≠ '"' →
        ¬(!v.quoted && isCommentSign c) = true → ∀ more left,
          Stands v.quoted (rest :: more) left → Stands v.quoted ((c :: rest) :: more) left := by
    intro v c rest hend hescape hquote hcomment more left hrest
    refine .plain (ne_backslash hend hescape) hquote (fun hq hmem => hcomment ?_) hrest
    simp [hq, isCommentSign_eq, hmem]
  fun_induction readValue v t with
  | case1 v hq => exact nofun
  | case2 v hq =>
    rintro ⟨⟩ more
    rw [Bool.eq_false_iff.mpr hq]
    exact .lineEnd more
  | case3 v =>
    rintro ⟨⟩ more left hmore
    exact .goesOn hmore
  | case4 v c rest hc => exact nofun
  | case5 v c rest meant hc ih =>
    exact fun h => (ih h).mono fun _ _ hrest => .escape (mem_escapable_of_lookup hc) hrest
  | case6 v rest _ _ ih => exact fun h => (ih h).mono fun _ _ hrest => .quote hrest
  | case7 v c rest _ _ hquote hcomment =>
    rintro ⟨⟩ more
    rw [isCommentSign_eq, Bool.and_eq_true, Bool.not_eq_true', decide_eq_true_eq] at hcomment
    rw [hcomment.1]
    exact .comment rest more hcomment.2
  | case8 v c rest hend hslash hquote hcomment hblank ih =>
    rw [quoted_hold] at ih
    exact fun h => (ih h).mono (plain hend hslash hquote hcomment)
  | case9 v c rest hend hslash hquote hcomment hblank ih =>
    exact fun h => (ih h).mono (plain hend hslash hquote hcomment)

/-- **A value can be read exactly if it stands where it is read**, with a quote open or not. -/
theorem exists_completes_iff :
    (∃ x rest, Completes v lines x rest) ↔ ∃ left, Stands v.quoted lines left := by
  constructor
  · rintro ⟨x, rest, h⟩
    induction h with
    | fileEnd v => exact ⟨v.quoted, .fileEnd v.quoted⟩
    | here hread => exact ⟨false, standsIn_of_readValue hread _⟩
    | next hread _ ih =>
      obtain ⟨left, hleft⟩ := ih
      exact ⟨left, standsIn_of_readValue hread _ left hleft⟩
  · rintro ⟨left, h⟩
    generalize hq : v.quoted = q at h
    induction h generalizing v with
    | fileEnd q => exact ⟨v.read, [], .fileEnd v⟩
    | lineEnd more =>
      refine ⟨v.read, more, .here ?_⟩
      rw [readValue, hq, if_neg Bool.false_ne_true]
    | comment t more hc => exact ⟨v.read, more, .here (readValue_comment hc hq t)⟩
    | goesOn _ ih =>
      obtain ⟨x, rest, h⟩ := ih hq
      exact ⟨x, rest, .next rfl h⟩
    | escape hc _ ih =>
      obtain ⟨meant, hread⟩ := exists_readValue_escape hc v _
      obtain ⟨x, rest, h⟩ := ih (v := v.take [meant]) hq
      exact ⟨x, rest, h.of_eq hread⟩
    | quote _ ih =>
      obtain ⟨x, rest, h⟩ := ih (v := v.toggle) (congrArg (!·) hq)
      exact ⟨x, rest, h.of_eq (readValue_quote v _)⟩
    | plain hslash hquote hcomment _ ih =>
      obtain ⟨v', hv', hread⟩ := exists_readValue_plain hslash hquote (hq ▸ hcomment) _
      obtain ⟨x, rest, h⟩ := ih (hv'.trans hq)
      exact ⟨x, rest, h.of_eq hread⟩

/-- Where reading fails, no value stands. -/
theorem not_stands_of_readValue {cause : Cause} (hread : readValue v t = .error cause) :
    ¬ ∃ left, Stands v.quoted (t :: more) left := by
  rw [← exists_completes_iff]
  rintro ⟨x, rest, h⟩
  cases h with
  | here h => cases hread.symm.trans h
  | next h _ => cases hread.symm.trans h

end GitConfig
end PathFilter
