import Mathlib.Data.List.Forall2
import PathFilter.Proofs.CompiledLines

/-! # Names of interpreters in first lines

A rule for an interpreter is to match the scripts whose first line holds its name as a word of its
own.  The name is looked for wherever a word begins or ends on both sides of it
(`Shebang.names_iff`).  At either end of the name this asks that of the character within it and the
one beside it **exactly one** belongs to a word, which is another condition than that the one beside
it belongs to none: where the name itself begins or ends with a character of no word, it asks that a
word goes on there.

So for names of ASCII characters **the rule matches what it is to match exactly if the name begins
and ends with a letter, a digit or an underscore** (`Rule.appliesTo_interpreter_iff`); of every
other name it misses a script whose first line is that name behind `#!`.
-/

namespace PathFilter
open Pattern

/-! ## ASCII characters -/

namespace Text

/-- Whether a character is an ASCII letter or digit or an underscore. -/
def inWord (c : Char) : Bool := c.isAlphanum || c = '_'

/-- All characters of a text are ASCII ones. -/
def IsAscii (t : Text) : Prop := ∀ c ∈ t, c.toNat < 128

instance (t : Text) : Decidable t.IsAscii :=
  List.decidableBAll (fun c : Char => c.toNat < 128) t

/-- What holds of the first code points holds of all ASCII characters. -/
theorem forall_ascii {p : Char → Prop} (h : ∀ n < 128, p (Char.ofNat n)) {c : Char}
    (hc : c.toNat < 128) : p c := by
  have hp := h c.toNat hc
  rwa [Char.ofNat_toNat] at hp

theorem isWordChar_of_ascii {c : Char} (hc : c.toNat < 128) : isWordChar c = inWord c :=
  forall_ascii (p := fun c => isWordChar c = inWord c) (by decide +kernel) hc

theorem inWord_toLower {c : Char} (hc : c.toNat < 128) : inWord c.toLower = inWord c :=
  forall_ascii (p := fun c => inWord c.toLower = inWord c) (by decide +kernel) hc

/-- A character belongs to a word in either case. -/
theorem any_inWord_map_toLower {o : Option Char} (ho : ∀ c ∈ o, c.toNat < 128) :
    (o.map Char.toLower).any inWord = o.any inWord := by
  cases o with
  | none => rfl
  | some c => exact inWord_toLower (ho c rfl)

theorem caseless_of_ascii {c : Char} (hc : c.toNat < 128) : caseless c = c.toLower.toNat :=
  forall_ascii (p := fun c => caseless c = c.toLower.toNat) (by decide +kernel) hc

/-- ASCII characters are equal but for their case if they have the same lower-case form. -/
theorem sameLetter_iff_of_ascii {a b : Char} (ha : a.toNat < 128) (hb : b.toNat < 128) :
    sameLetter a b = true ↔ b.toLower = a.toLower := by
  rw [sameLetter, beq_iff_eq, caseless_of_ascii ha, caseless_of_ascii hb, Char.toNat_inj, eq_comm]

theorem forall₂_sameLetter_iff {s t : Text} (hs : s.IsAscii) (ht : t.IsAscii) :
    List.Forall₂ (fun a b => sameLetter a b = true) s t ↔
      t.map Char.toLower = s.map Char.toLower := by
  induction s generalizing t with
  | nil => simp [List.forall₂_nil_left_iff]
  | cons a s ih =>
    cases t with
    | nil => simp
    | cons b t =>
      obtain ⟨ha, hs⟩ := List.forall_mem_cons.mp hs
      obtain ⟨hb, ht⟩ := List.forall_mem_cons.mp ht
      rw [List.forall₂_cons, sameLetter_iff_of_ascii ha hb, ih hs ht, List.map_cons, List.map_cons,
        List.cons.injEq]

/-- A text without blanks at its ends is itself without them. -/
theorem strip_eq_self {t : Text} (hhead : ∀ c ∈ t.head?, isBlank c = false)
    (hlast : ∀ c ∈ t.getLast?, isBlank c = false) : strip t = t := by
  obtain ⟨lead, blanks, hlead, hblanks, heq⟩ := exists_append_strip_append t
  obtain rfl : lead = [] := by
    cases lead with
    | nil => rfl
    | cons c lead =>
      rw [heq] at hhead
      cases (hlead c List.mem_cons_self).symm.trans (hhead c rfl)
  obtain rfl : blanks = [] := by
    rcases List.eq_nil_or_concat blanks with rfl | ⟨blanks, c, rfl⟩
    · rfl
    · rw [List.concat_eq_append] at heq hblanks
      rw [heq, List.nil_append, ← List.append_assoc] at hlast
      have hblank := hblanks c (List.mem_append_right _ (List.mem_singleton_self c))
      cases hblank.symm.trans (hlast c (List.getLast?_concat ..))
  rw [List.nil_append, List.append_nil] at heq
  exact heq.symm

end Text

/-! ## Where a name stands -/

namespace Shebang
variable {before : Char} {name t : Text}

theorem nameHere_iff : nameHere before name t = true ↔
    ∃ mid post, t = mid ++ post ∧ List.Forall₂ (fun a b => Text.sameLetter a b = true) name mid ∧
      wordBoundary (mid.getLastD before) post.head? = true := by
  induction name generalizing before t with
  | nil =>
    rw [nameHere]
    constructor
    · exact fun h => ⟨[], t, rfl, .nil, h⟩
    · rintro ⟨mid, post, rfl, hmid, h⟩
      cases hmid
      exact h
  | cons a name ih =>
    cases t with
    | nil =>
      refine iff_of_false nofun ?_
      rintro ⟨mid, post, heq, hmid, -⟩
      cases hmid
      cases heq
    | cons c t =>
      rw [nameHere, Bool.and_eq_true, ih]
      constructor
      · rintro ⟨hc, mid, post, rfl, hmid, h⟩
        exact ⟨c :: mid, post, rfl, .cons hc hmid, by rwa [List.getLastD_cons]⟩
      · rintro ⟨mid, post, heq, hmid, h⟩
        obtain ⟨b, mid, hb, hrest, rfl⟩ := List.forall₂_cons_left_iff.mp hmid
        cases heq
        exact ⟨hb, mid, post, rfl, hrest, by rwa [List.getLastD_cons] at h⟩

theorem nameWithin_iff : nameWithin name before t = true ↔
    ∃ pre rest, t = pre ++ rest ∧ '\n' ∉ pre ∧
      wordBoundary (pre.getLastD before) rest.head? = true ∧
      nameHere (pre.getLastD before) name rest = true := by
  induction t generalizing before with
  | nil =>
    rw [nameWithin, Bool.or_false, Bool.and_eq_true]
    constructor
    · exact fun h => ⟨[], [], rfl, List.not_mem_nil, h⟩
    · rintro ⟨pre, rest, heq, -, h⟩
      obtain ⟨rfl, rfl⟩ := List.append_eq_nil_iff.mp heq.symm
      exact h
  | cons c t ih =>
    rw [nameWithin, Bool.or_eq_true, Bool.and_eq_true, Bool.and_eq_true, decide_eq_true_iff, ih]
    constructor
    · rintro (h | ⟨hc, pre, rest, rfl, hpre, h⟩)
      · exact ⟨[], c :: t, rfl, List.not_mem_nil, h⟩
      · refine ⟨c :: pre, rest, rfl, ?_, by rwa [List.getLastD_cons]⟩
        rw [List.mem_cons, not_or]
        exact ⟨Ne.symm hc, hpre⟩
    · rintro ⟨pre, rest, heq, hpre, h⟩
      cases pre with
      | nil =>
        cases heq
        exact .inl h
      | cons d pre =>
        cases heq
        rw [List.mem_cons, not_or] at hpre
        rw [List.getLastD_cons] at h
        exact .inr ⟨Ne.symm hpre.1, pre, rest, rfl, hpre.2, h⟩

/-- **What a rule for an interpreter looks for in a first line**: the name of it behind `#!`, in any
case of its letters, with a word beginning or ending at both ends of it. -/
theorem names_iff {line : Text} : names line name = true ↔
    ∃ pre mid post, line = '#' :: '!' :: (pre ++ (mid ++ post)) ∧ '\n' ∉ pre ∧
      List.Forall₂ (fun a b => Text.sameLetter a b = true) name mid ∧
      wordBoundary (pre.getLastD '!') (mid ++ post).head? = true ∧
      wordBoundary (mid.getLastD (pre.getLastD '!')) post.head? = true := by
  rw [names.eq_def]
  split
  · rename_i t
    rw [nameWithin_iff]
    constructor
    · rintro ⟨pre, rest, rfl, hpre, hbegin, hhere⟩
      obtain ⟨mid, post, rfl, hmid, hend⟩ := nameHere_iff.mp hhere
      exact ⟨pre, mid, post, rfl, hpre, hmid, hbegin, hend⟩
    · rintro ⟨pre, mid, post, heq, hpre, hmid, hbegin, hend⟩
      cases heq
      exact ⟨pre, mid ++ post, rfl, hpre, hbegin, nameHere_iff.mpr ⟨mid, post, rfl, hmid, hend⟩⟩
  · rename_i hnot
    refine iff_of_false Bool.false_ne_true ?_
    rintro ⟨pre, mid, post, heq, -⟩
    exact hnot _ heq

/-! ### Names of ASCII characters -/

/-- A name stands in a text, in any case of its letters, between two others. -/
structure Stands (name t pre mid post : Text) : Prop where
  eq : t = pre ++ (mid ++ post)
  alike : mid.map Char.toLower = name.map Char.toLower

/-- A name stands in a text as a word of its own: neither the character before it nor that behind it
belongs to a word. -/
def IsWordIn (name t : Text) : Prop :=
  ∃ pre mid post, Stands name t pre mid post ∧
    pre.getLast?.any Text.inWord = false ∧ post.head?.any Text.inWord = false

/-- A name stands in a text with a word beginning or ending at both of its ends: of the characters
on either side of an end, one belongs to a word. -/
def IsBoundedIn (name t : Text) : Prop :=
  ∃ pre mid post, Stands name t pre mid post ∧
    pre.getLast?.any Text.inWord ≠ name.head?.any Text.inWord ∧
    name.getLast?.any Text.inWord ≠ post.head?.any Text.inWord

theorem Stands.length_eq {pre mid post : Text} (h : Stands name t pre mid post) :
    mid.length = name.length := by
  rw [← List.length_map Char.toLower, h.alike, List.length_map]

/-- A name of which either end belongs to a word is bounded exactly where it is a word. -/
theorem isBoundedIn_iff_isWordIn (hhead : name.head?.any Text.inWord = true)
    (hlast : name.getLast?.any Text.inWord = true) : IsBoundedIn name t ↔ IsWordIn name t := by
  have hends : ∀ {pre post : Text}, (pre.getLast?.any Text.inWord ≠ name.head?.any Text.inWord ∧
      name.getLast?.any Text.inWord ≠ post.head?.any Text.inWord) ↔
      pre.getLast?.any Text.inWord = false ∧ post.head?.any Text.inWord = false := by
    intro pre post
    rw [hhead, hlast, ne_comm (a := true), ne_eq, ne_eq, Bool.not_eq_true, Bool.not_eq_true]
  simp only [IsBoundedIn, IsWordIn, hends]

theorem isWordIn_self (name : Text) : IsWordIn name name :=
  ⟨[], name, [], ⟨by rw [List.nil_append, List.append_nil], rfl⟩, rfl, rfl⟩

/-- **A name of which one end belongs to no word is not bounded where nothing stands beside it.** -/
theorem not_isBoundedIn_self
    (h : name.head?.any Text.inWord = false ∨ name.getLast?.any Text.inWord = false) :
    ¬ IsBoundedIn name name := by
  rintro ⟨pre, mid, post, hstands, hbegin, hend⟩
  have hlength := congrArg List.length hstands.eq
  rw [List.length_append, List.length_append, hstands.length_eq] at hlength
  obtain rfl : pre = [] := List.eq_nil_of_length_eq_zero (by omega)
  obtain rfl : post = [] := List.eq_nil_of_length_eq_zero (by omega)
  rcases h with h | h
  · exact hbegin h.symm
  · exact hend h

/-- Whether the last character of a text belongs to a word, where one before it does not. -/
theorem isWordChar_getLastD {pre : Text} (hpre : pre.IsAscii) {c : Char}
    (hc : pre = [] → Text.isWordChar c = false) :
    Text.isWordChar (pre.getLastD c) = pre.getLast?.any Text.inWord := by
  rcases List.eq_nil_or_concat pre with rfl | ⟨pre, d, rfl⟩
  · exact hc rfl
  · rw [List.concat_eq_append] at hpre ⊢
    rw [List.getLastD_concat, List.getLast?_concat]
    exact Text.isWordChar_of_ascii (hpre d (List.mem_append_right _ (List.mem_singleton_self d)))

theorem wordBoundary_iff {c : Char} {t : Text} (ht : t.IsAscii) :
    wordBoundary c t.head? = true ↔ Text.isWordChar c ≠ t.head?.any Text.inWord := by
  rw [wordBoundary, bne_iff_ne]
  cases t with
  | nil => exact Iff.rfl
  | cons d t =>
    rw [List.head?_cons, Option.any_some, Option.any_some,
      Text.isWordChar_of_ascii (ht d List.mem_cons_self)]

/-- What stands for a name begins and ends with a character of a word where the name does. -/
theorem Stands.any_inWord {pre mid post : Text} (h : Stands name t pre mid post)
    (hmid : mid.IsAscii) (hname : name.IsAscii) :
    mid.head?.any Text.inWord = name.head?.any Text.inWord ∧
      mid.getLast?.any Text.inWord = name.getLast?.any Text.inWord := by
  constructor
  · rw [← Text.any_inWord_map_toLower fun c hc => hmid c (List.mem_of_mem_head? hc),
      ← Text.any_inWord_map_toLower fun c hc => hname c (List.mem_of_mem_head? hc),
      ← List.head?_map, ← List.head?_map, h.alike]
  · rw [← Text.any_inWord_map_toLower fun c hc => hmid c (List.mem_of_getLast? hc),
      ← Text.any_inWord_map_toLower fun c hc => hname c (List.mem_of_getLast? hc),
      ← List.getLast?_map, ← List.getLast?_map, h.alike]

/-- A word begins or ends at both ends of a name exactly if of the characters on either side of an
end one belongs to a word. -/
theorem Stands.wordBoundary_iff {pre mid post : Text} (h : Stands name t pre mid post)
    (hne : name ≠ []) (hname : name.IsAscii) (ht : t.IsAscii) :
    (wordBoundary (pre.getLastD '!') (mid ++ post).head? = true ∧
      wordBoundary (mid.getLastD (pre.getLastD '!')) post.head? = true) ↔
    pre.getLast?.any Text.inWord ≠ name.head?.any Text.inWord ∧
      name.getLast?.any Text.inWord ≠ post.head?.any Text.inWord := by
  obtain ⟨hpre, hrest⟩ := List.forall_mem_append.mp (h.eq ▸ ht)
  obtain ⟨hmid, hpost⟩ := List.forall_mem_append.mp hrest
  have hmidne : mid ≠ [] := fun hnil =>
    hne (List.eq_nil_of_length_eq_zero (by rw [← h.length_eq, hnil, List.length_nil]))
  obtain ⟨hbegin, hend⟩ := h.any_inWord hmid hname
  rw [Shebang.wordBoundary_iff hrest, Shebang.wordBoundary_iff hpost,
    isWordChar_getLastD hpre fun _ => rfl, isWordChar_getLastD hmid fun hnil => absurd hnil hmidne,
    List.head?_append_of_ne_nil _ hmidne, hbegin, hend]

/-- **A name of ASCII characters is found in a first line of ASCII characters where it stands
bounded behind `#!`.** -/
theorem names_iff_isBoundedIn {line : Text} (hne : name ≠ []) (hname : name.IsAscii)
    (hline : line.IsAscii) (hfeed : '\n' ∉ line) :
    names line name = true ↔ ∃ t, line = '#' :: '!' :: t ∧ IsBoundedIn name t := by
  rw [names_iff]
  constructor
  · rintro ⟨pre, mid, post, rfl, -, halike, hbounds⟩
    have ht : Text.IsAscii (pre ++ (mid ++ post)) := fun c hc =>
      hline c (List.mem_cons_of_mem _ (List.mem_cons_of_mem _ hc))
    have hmid : Text.IsAscii mid := fun c hc =>
      ht c (List.mem_append_right _ (List.mem_append_left _ hc))
    have hstands : Stands name (pre ++ (mid ++ post)) pre mid post :=
      ⟨rfl, (Text.forall₂_sameLetter_iff hname hmid).mp halike⟩
    exact ⟨_, rfl, pre, mid, post, hstands, (hstands.wordBoundary_iff hne hname ht).mp hbounds⟩
  · rintro ⟨t, rfl, pre, mid, post, hstands, hbounds⟩
    have ht : Text.IsAscii t := fun c hc =>
      hline c (List.mem_cons_of_mem _ (List.mem_cons_of_mem _ hc))
    have hbounds := (hstands.wordBoundary_iff hne hname ht).mpr hbounds
    obtain ⟨rfl, halike⟩ := hstands
    have hmid : Text.IsAscii mid := fun c hc =>
      ht c (List.mem_append_right _ (List.mem_append_left _ hc))
    refine ⟨pre, mid, post, rfl, fun hc => hfeed ?_,
      (Text.forall₂_sameLetter_iff hname hmid).mpr halike, hbounds⟩
    exact List.mem_cons_of_mem _ (List.mem_cons_of_mem _ (List.mem_append_left _ hc))

end Shebang

/-! ## Rules -/

namespace Candidate

/-- A candidate below a root, the first line of which, if it is known, is one of ASCII characters.
-/
structure IsAsciiBelow (root : Text) (c : Candidate) : Prop where
  below : (c.below? root).isSome = true
  ascii : ∀ line ∈ c.firstLine, line.IsAscii
  feedless : ∀ line ∈ c.firstLine, '\n' ∉ line

/-- A candidate is a script whose first line is such a text behind `#!`. -/
def IsScriptWith (P : Text → Prop) (c : Candidate) : Prop :=
  c.isDir = false ∧ '.' ∉ Path.name c.path ∧ ∃ t, c.firstLine = some ('#' :: '!' :: t) ∧ P t

end Candidate

theorem mayBeScript_iff {isDir : Bool} {name : Text} :
    mayBeScript isDir name = true ↔ isDir = false ∧ '.' ∉ name := by
  simp [mayBeScript]

namespace Rule
variable {root name : Text}

/-- The rule that a name without blanks at its ends makes. -/
theorem ofLine?_interpreterMark_append (hne : name ≠ [])
    (hhead : ∀ c ∈ name.head?, Text.isBlank c = false)
    (hlast : ∀ c ∈ name.getLast?, Text.isBlank c = false) (root : Text) (allow : Bool) :
    ofLine? root allow (interpreterMark ++ name) =
      some (.interpreter ⟨interpreterMark ++ name, Path.slashed root, false, name⟩) := by
  have hline : stripLineEnd (interpreterMark ++ name) = interpreterMark ++ name := by
    refine stripLineEnd_eq_self fun c hc => ?_
    rw [List.getLast?_append_of_ne_nil _ hne] at hc
    refine ⟨?_, ?_, ?_⟩
    · rintro (rfl | rfl) <;> exact absurd (hlast _ hc) (by decide)
    · rintro rfl
      exact absurd (hlast _ hc) (by decide)
    · rintro rfl
      exact absurd (hlast _ hc) (by decide)
  have hread : Line.read (interpreterMark ++ name) = some (.interpreter false name) :=
    Line.read_eq_interpreter_iff.mpr ⟨name, hline, (Text.strip_eq_self hhead hlast).symm⟩
  rw [ofLine?_of_interpreter hread, if_neg fun hempty => hne (List.isEmpty_iff.mp hempty)]

theorem appliesTo_interpreter {r : InterpreterRule} {c : Candidate}
    (hc : c.IsAsciiBelow r.root) (hne : r.interpreter ≠ []) (hname : r.interpreter.IsAscii) :
    (interpreter r).appliesTo c = true ↔ c.IsScriptWith (Shebang.IsBoundedIn r.interpreter) := by
  have hline : c.firstLine.any (Shebang.names · r.interpreter) = true ↔
      ∃ t, c.firstLine = some ('#' :: '!' :: t) ∧ Shebang.IsBoundedIn r.interpreter t := by
    cases hfirst : c.firstLine with
    | none => exact iff_of_false Bool.false_ne_true (by rintro ⟨t, heq, -⟩; cases heq)
    | some line =>
      rw [Option.any_some, Shebang.names_iff_isBoundedIn hne hname (hc.ascii line hfirst)
        (hc.feedless line hfirst)]
      simp only [Option.some.injEq]
  rw [appliesTo, hc.below, Bool.true_and, Candidate.content, Candidate.IsScriptWith, ← hline,
    ← and_assoc, ← mayBeScript_iff]
  by_cases hscript : mayBeScript c.isDir (Path.name c.path) = true
  · rw [if_pos hscript, and_iff_right hscript]
  · rw [if_neg hscript]
    exact iff_of_false Bool.false_ne_true fun h => hscript h.1

/-- **A rule for an interpreter matches the scripts that hold its name as a word of its own, exactly
if the name begins and ends with a letter, a digit or an underscore.**  The name is any one of ASCII
characters without blanks at its ends and without a line feed, and the candidates are all of those
below the root with a first line of ASCII characters.  Of each it is said when the rule matches:
where a word begins or ends at both ends of the name. -/
theorem appliesTo_interpreter_iff (hne : name ≠ []) (hname : name.IsAscii)
    (hhead : ∀ c ∈ name.head?, Text.isBlank c = false)
    (hlast : ∀ c ∈ name.getLast?, Text.isBlank c = false) (hfeed : '\n' ∉ name)
    (root : Text) (allow : Bool) :
    ∃ r, ofLine? root allow (interpreterMark ++ name) = some r ∧
      (∀ c : Candidate, c.IsAsciiBelow (Path.slashed root) →
        (r.appliesTo c = true ↔ c.IsScriptWith (Shebang.IsBoundedIn name))) ∧
      ((∀ c : Candidate, c.IsAsciiBelow (Path.slashed root) →
        (r.appliesTo c = true ↔ c.IsScriptWith (Shebang.IsWordIn name))) ↔
        name.head?.any Text.inWord = true ∧ name.getLast?.any Text.inWord = true) := by
  refine ⟨_, ofLine?_interpreterMark_append hne hhead hlast root allow,
    fun c hc => appliesTo_interpreter hc hne hname, ?_, fun ⟨hhead, hlast⟩ c hc => ?_⟩
  · intro hall
    by_contra hends
    rw [not_and_or, Bool.not_eq_true, Bool.not_eq_true] at hends
    obtain ⟨front, hfront⟩ :=
      List.getLast?_eq_some_iff.mp (beq_iff_eq.mp (Path.endsIn_slashed root))
    have hpath : Path.name (Path.slashed root ++ ['x']) = ['x'] := by
      rw [hfront, List.append_assoc]
      exact Text.afterLast_append (by decide) front
    -- a script below the root whose first line is the name behind the mark
    let c : Candidate := ⟨Path.slashed root ++ ['x'], false, some ('#' :: '!' :: name)⟩
    have hc : c.IsAsciiBelow (Path.slashed root) := by
      refine ⟨?_, ?_, ?_⟩
      · rw [Candidate.below?, Path.below?_eq_some_iff.mpr ⟨List.cons_ne_nil 'x' [], rfl⟩]
        rfl
      · rintro line ⟨⟩
        exact List.forall_mem_cons.mpr ⟨by decide, List.forall_mem_cons.mpr ⟨by decide, hname⟩⟩
      · rintro line ⟨⟩
        simpa using hfeed
    have hword : c.IsScriptWith (Shebang.IsWordIn name) :=
      ⟨rfl, by rw [hpath]; decide, name, rfl, Shebang.isWordIn_self name⟩
    obtain ⟨-, -, t, heq, hbounded⟩ :=
      (appliesTo_interpreter hc hne hname).mp ((hall c hc).mpr hword)
    cases heq
    exact Shebang.not_isBoundedIn_self hends hbounded
  · rw [appliesTo_interpreter hc hne hname, Candidate.IsScriptWith, Candidate.IsScriptWith]
    simp only [Shebang.isBoundedIn_iff_isWordIn hhead hlast]

/-- The name `ruby` is found as a word of its own, behind a name that holds it. -/
theorem appliesTo_interpreter_ruby : ∃ r, ofLine? "/r".toList true "#!:ruby".toList = some r ∧
    r.appliesTo ⟨"/r/tool".toList, false, some "#!/opt/jruby/bin/Ruby -w".toList⟩ = true := by
  have hruby : "ruby".toList ≠ [] := by decide
  have hhead : ∀ c ∈ "ruby".toList.head?, Text.isBlank c = false := by
    rintro _ ⟨⟩
    decide
  have hlast : ∀ c ∈ "ruby".toList.getLast?, Text.isBlank c = false := by
    rintro _ ⟨⟩
    decide
  obtain ⟨r, hr, -, hwords⟩ :=
    appliesTo_interpreter_iff hruby (by decide) hhead hlast (by decide) "/r".toList true
  refine ⟨r, hr, (hwords.mpr (by decide) _ ⟨by decide +kernel, ?_, ?_⟩).mpr ⟨rfl, ?_, ?_⟩⟩
  · rintro line ⟨⟩
    decide +kernel
  · rintro line ⟨⟩
    decide +kernel
  · decide +kernel
  · exact ⟨"/opt/jruby/bin/Ruby -w".toList, rfl, "/opt/jruby/bin/".toList, "Ruby".toList,
      " -w".toList, ⟨rfl, by decide +kernel⟩, rfl, rfl⟩

/-- **A word of its own is missed**: the name `c++` stands at the end of the line and behind a
slash, but no word ends behind it. -/
theorem whole_word_missed : ∃ r, ofLine? "/r".toList false "#!:c++".toList = some r ∧
    r.appliesTo ⟨"/r/x".toList, false, some "#!/usr/bin/c++".toList⟩ = false ∧
    Candidate.IsAsciiBelow "/r/".toList ⟨"/r/x".toList, false, some "#!/usr/bin/c++".toList⟩ ∧
    Candidate.IsScriptWith (Shebang.IsWordIn "c++".toList)
      ⟨"/r/x".toList, false, some "#!/usr/bin/c++".toList⟩ := by
  refine ⟨.interpreter ⟨"#!:c++".toList, "/r/".toList, false, "c++".toList⟩, by decide +kernel,
    by decide +kernel, ⟨by decide +kernel, ?_, ?_⟩, rfl, by decide +kernel, "/usr/bin/c++".toList,
    rfl, "/usr/bin/".toList, "c++".toList, [], ⟨rfl, rfl⟩, rfl, rfl⟩
  · rintro line ⟨⟩
    decide +kernel
  · rintro line ⟨⟩
    decide +kernel

end Rule
end PathFilter
