import PathFilter.Proofs.BracketFaults
import PathFilter.Proofs.Escapes

/-! # Reading a segment by position

The glyphs of a segment are read from its text once and for all.  A reader that goes through the
text itself has to look behind each backslash, and finds nothing there if the text ends in one.
This module gives that reader (`readPieces`, with `readItems` for bracket expressions): a position
is what is left of the text, and `charAt` is the read of a character that is taken to be there.

* **On the text of a segment every read is in range, and the pieces are those of its glyphs**
  (`readPieces_toText`, `readPieces_ne_outOfRange`).  What carries this from the body into its
  brackets is that every backslash has its partner within the segment (`Paired`,
  `paired_of_segments`).
* The texts of the segments, with the slashes between them, make up the body
  (`joinWith_cutAtSlashes`).
-/

namespace PathFilter.Pattern
variable {first : Bool} {g : Glyph} {gs rest : List Glyph} {item : ClassItem}

/-! ## The reader -/

/-- Why a reader by position stops: it looks behind the end of the text, or the text is
malformed. -/
inductive ReadFailure where
  | outOfRange
  | malformed
deriving DecidableEq

/-- The character at a position, and the position behind it. -/
def charAt : Text → Except ReadFailure (Char × Text)
  | [] => .error .outOfRange
  | c :: rest => .ok (c, rest)

/-- The character that is meant at a position, which is the next one behind a backslash. -/
def charMeantAt : Text → Except ReadFailure (Char × Text)
  | [] => .error .outOfRange
  | c :: rest => if c = '\\' then charAt rest else .ok (c, rest)

/-- What stands before the first `:]`, and the position behind it. -/
def cutAtNameEnd : Text → Option (Text × Text)
  | [] => none
  | c :: rest =>
    if c = ':' ∧ rest.head? = some ']' then some ([], rest.tail)
    else (cutAtNameEnd rest).map fun (name, behind) => (c :: name, behind)

/-- Whether a dash and the upper end of a range stand at a position. -/
def rangeAt : Text → Bool
  | d :: c :: _ => d = '-' && c ≠ ']'
  | _ => false

/-- Reads one item of a bracket expression; there is none at the closing bracket.  Behind a dash
the reader looks whether the text goes on, at the beginning of an item it does not. -/
def readItem (first : Bool) : Text → Except ReadFailure (Option ClassItem × Text)
  | [] => .error .malformed
  | c :: rest =>
    if c = ']' ∧ first = false then .ok (none, rest)
    else if c = '[' ∧ rest.head? = some ':' then
      match cutAtNameEnd rest.tail with
      | none => .error .malformed
      | some (name, behind) =>
        match ClassName.written.lookup name with
        | none => .error .malformed
        | some k => .ok (some (.named k), behind)
    else (charMeantAt (c :: rest)).bind fun (low, rest) =>
      if rangeAt rest then
        ((charMeantAt rest.tail).mapError fun _ => .malformed).bind fun (high, rest) =>
          if high < low then .error .malformed else .ok (some (.range low high), rest)
      else .ok (some (.single low), rest)

theorem length_charMeantAt {t rest : Text} {c : Char} (h : charMeantAt t = .ok (c, rest)) :
    rest.length < t.length := by
  match t with
  | [] => cases h
  | [a] =>
    rw [charMeantAt] at h
    split at h
    · cases h
    · cases h
      exact Nat.one_pos
  | a :: b :: t =>
    rw [charMeantAt] at h
    split at h
    · cases h
      exact Nat.lt_succ_of_lt (Nat.lt_succ_self _)
    · cases h
      exact Nat.lt_succ_self _

theorem eq_append_of_cutAtNameEnd {t name behind : Text}
    (h : cutAtNameEnd t = some (name, behind)) : t = name ++ ':' :: ']' :: behind := by
  induction t generalizing name with
  | nil => cases h
  | cons c t ih =>
    rw [cutAtNameEnd] at h
    split at h
    · rename_i hend
      cases h
      obtain ⟨tail, rfl⟩ := List.head?_eq_some_iff.mp hend.2
      rw [hend.1]
      rfl
    · obtain ⟨⟨name', behind'⟩, hcut, heq⟩ := Option.map_eq_some_iff.mp h
      cases heq
      exact congrArg (c :: ·) (ih hcut)

theorem cutAtNameEnd_append {name : Text} (hname : ':' ∉ name) (behind : Text) :
    cutAtNameEnd (name ++ ':' :: ']' :: behind) = some (name, behind) := by
  induction name with
  | nil => rfl
  | cons c name ih =>
    have hc : c ≠ ':' := fun h => hname (h ▸ List.mem_cons_self)
    rw [List.cons_append, cutAtNameEnd, if_neg fun h => hc h.1,
      ih fun h => hname (List.mem_cons_of_mem c h)]
    rfl

theorem length_readItem {t rest : Text} {item : Option ClassItem}
    (h : readItem first t = .ok (item, rest)) : rest.length < t.length := by
  cases t with
  | nil => cases h
  | cons c t =>
    rw [readItem] at h
    split at h
    · cases h
      exact Nat.lt_succ_self _
    · split at h
      · split at h
        · cases h
        · rename_i hcut
          split at h
          · cases h
          · cases h
            have := congrArg List.length (eq_append_of_cutAtNameEnd hcut)
            simp only [List.length_append, List.length_cons, List.length_tail] at this ⊢
            omega
      · obtain ⟨⟨low, t'⟩, hlow, h⟩ := bind_eq_ok_iff.mp h
        have hlt := length_charMeantAt hlow
        dsimp only at h
        split at h
        · obtain ⟨⟨high, t''⟩, hhigh, h⟩ := bind_eq_ok_iff.mp h
          have hlt' := length_charMeantAt (mapError_eq_ok_iff.mp hhigh)
          rw [List.length_tail] at hlt'
          dsimp only at h
          split at h
          · cases h
          · cases h
            omega
        · cases h
          exact hlt

/-- Reads the items of a bracket expression up to its closing bracket. -/
def readItems (first : Bool) (t : Text) : Except ReadFailure (List ClassItem × Text) :=
  match _h : readItem first t with
  | .error e => .error e
  | .ok (none, rest) => .ok ([], rest)
  | .ok (some item, rest) => (readItems false rest).map fun (items, rest) => (item :: items, rest)
termination_by t.length
decreasing_by exact length_readItem _h

theorem readItems_of_error {t : Text} {e : ReadFailure} (h : readItem first t = .error e) :
    readItems first t = .error e := by
  rw [readItems]
  split <;> simp_all

theorem readItems_of_none {t rest : Text} (h : readItem first t = .ok (none, rest)) :
    readItems first t = .ok ([], rest) := by
  rw [readItems]
  split <;> simp_all

theorem readItems_of_some {t rest : Text} (h : readItem first t = .ok (some item, rest)) :
    readItems first t = (readItems false rest).map fun (items, rest) => (item :: items, rest) := by
  rw [readItems]
  split <;> simp_all

theorem length_readItems {t rest : Text} {items : List ClassItem}
    (h : readItems first t = .ok (items, rest)) : rest.length < t.length := by
  fun_induction readItems first t generalizing items with
  | case1 => cases h
  | case2 _ _ _ hread =>
    cases h
    exact length_readItem hread
  | case3 _ _ _ _ hread ih =>
    obtain ⟨⟨items', rest'⟩, hrest, heq⟩ := map_eq_ok_iff.mp h
    cases heq
    exact (ih hrest).trans (length_readItem hread)

/-- Reads a bracket expression behind its opening bracket. -/
def readClass (t : Text) : Except ReadFailure (CharClass × Text) :=
  let negated := t.head?.any fun c => c = '!' || c = '^'
  (readItems true (if negated then t.tail else t)).map fun (items, rest) =>
    (⟨negated, items⟩, rest)

/-- Reads the piece that begins with a character. -/
def readPiece (c : Char) (rest : Text) : Except ReadFailure (Piece × Text) :=
  if c = '\\' then (charAt rest).map fun (a, rest) => (.char a, rest)
  else if c = '*' then .ok (.anyRun, rest.dropWhile (· = '*'))
  else if c = '?' then .ok (.anyChar, rest)
  else if c = '[' then (readClass rest).map fun (k, rest) => (.oneOf k, rest)
  else .ok (.char c, rest)

theorem length_readPiece {c : Char} {t rest : Text} {p : Piece}
    (h : readPiece c t = .ok (p, rest)) : rest.length ≤ t.length := by
  rw [readPiece] at h
  split at h
  · obtain ⟨⟨a, t'⟩, hchar, heq⟩ := map_eq_ok_iff.mp h
    cases heq
    cases t with
    | nil => cases hchar
    | cons b t =>
      cases hchar
      exact Nat.le_succ _
  · split at h
    · cases h
      exact (List.dropWhile_suffix _).length_le
    · split at h
      · cases h
        exact Nat.le_refl _
      · split at h
        · obtain ⟨⟨k, t'⟩, hclass, heq⟩ := map_eq_ok_iff.mp h
          cases heq
          obtain ⟨⟨items, t'⟩, hitems, heq⟩ := map_eq_ok_iff.mp hclass
          cases heq
          have hlt := length_readItems hitems
          split at hlt
          · rw [List.length_tail] at hlt
            omega
          · exact hlt.le
        · cases h
          exact Nat.le_refl _

/-- Reads the pieces of a segment from its text. -/
def readPieces : Text → Except ReadFailure (List Piece)
  | [] => .ok []
  | c :: t =>
    match _h : readPiece c t with
    | .error e => .error e
    | .ok (p, rest) => (readPieces rest).map (p :: ·)
termination_by t => t.length
decreasing_by exact Nat.lt_succ_of_le (length_readPiece _h)

theorem readPieces_cons (c : Char) (t : Text) :
    readPieces (c :: t) =
      (readPiece c t).bind fun (p, rest) => (readPieces rest).map (p :: ·) := by
  rw [readPieces]
  split <;> simp_all [Except.bind]

/-! ## Glyphs and their text -/

/-- Every backslash has its partner: none of the glyphs is a bare one. -/
def Paired (gs : List Glyph) : Prop := ∀ g ∈ gs, g ≠ .bare '\\'

theorem Paired.tail (h : Paired (g :: gs)) : Paired gs :=
  fun a ha => h a (List.mem_cons_of_mem g ha)

theorem Paired.of_suffix (h : Paired gs) (hrest : rest <:+ gs) : Paired rest :=
  fun a ha => h a (hrest.subset ha)

theorem TakesItem.suffix (h : TakesItem first gs item rest) : rest <:+ gs := by
  cases h with
  | @named name _ rest =>
    exact ⟨.bare '[' :: .bare ':' :: (name.map .bare ++ [.bare ':', .bare ']']), by simp⟩
  | @range g i rest => exact ⟨[g, .bare '-', i], rfl⟩
  | @single g rest => exact List.suffix_cons g rest

theorem Segment.toText_cons (g : Glyph) (gs : List Glyph) :
    Segment.toText (g :: gs) = g.toText ++ Segment.toText gs := rfl

theorem Segment.toText_append (gs gs' : List Glyph) :
    Segment.toText (gs ++ gs') = Segment.toText gs ++ Segment.toText gs' := List.flatMap_append

theorem Segment.toText_map_bare (t : Text) : Segment.toText (t.map .bare) = t := by
  induction t with
  | nil => rfl
  | cons c t ih => exact congrArg (c :: ·) ih

/-- A glyph whose text begins with something else than a backslash is not escaped. -/
theorem Glyph.eq_bare_of_toText {c : Char} {t t' : Text} (hc : c ≠ '\\')
    (h : g.toText ++ t = c :: t') : g = .bare c ∧ t = t' := by
  obtain ⟨a, escaped⟩ := g
  cases escaped with
  | true => exact absurd (List.cons.inj h).1.symm hc
  | false =>
    obtain ⟨rfl, rfl⟩ := List.cons.inj h
    exact ⟨rfl, rfl⟩

theorem head?_toText_iff {c : Char} (hc : c ≠ '\\') (gs : List Glyph) :
    (Segment.toText gs).head? = some c ↔ gs.head? = some (.bare c) := by
  cases gs with
  | nil => exact iff_of_false nofun nofun
  | cons g gs =>
    rw [List.head?_eq_some_iff, Segment.toText_cons, List.head?_cons, Option.some_inj]
    constructor
    · rintro ⟨t, h⟩
      exact (Glyph.eq_bare_of_toText hc h).1
    · rintro rfl
      exact ⟨_, rfl⟩

theorem charMeantAt_toText (hg : g ≠ .bare '\\') (t : Text) :
    charMeantAt (g.toText ++ t) = .ok (g.char, t) := by
  obtain ⟨c, escaped⟩ := g
  cases escaped with
  | true => rfl
  | false => exact if_neg fun hc => hg (congrArg Glyph.bare hc)

theorem rangeAt_eq_true_iff {t : Text} :
    rangeAt t = true ↔ ∃ c t', t = '-' :: c :: t' ∧ c ≠ ']' := by
  match t with
  | [] => exact iff_of_false nofun nofun
  | [_] => exact iff_of_false nofun nofun
  | d :: c :: t =>
    rw [rangeAt, Bool.and_eq_true, decide_eq_true_eq, decide_eq_true_eq]
    constructor
    · rintro ⟨rfl, hc⟩
      exact ⟨c, t, rfl, hc⟩
    · rintro ⟨_, _, heq, hc⟩
      cases heq
      exact ⟨rfl, hc⟩

theorem rangeAt_toText_iff (gs : List Glyph) :
    rangeAt (Segment.toText gs) = true ↔ ContinuesRange gs := by
  rw [rangeAt_eq_true_iff]
  constructor
  · rintro ⟨c, t, heq, hc⟩
    have hdash : gs.head? = some (.bare '-') :=
      (head?_toText_iff (by decide) gs).mp (by rw [heq]; rfl)
    obtain ⟨gs, rfl⟩ := List.head?_eq_some_iff.mp hdash
    cases gs with
    | nil => cases heq
    | cons i gs =>
      refine ⟨rfl, ?_⟩
      rintro rfl
      cases heq
      exact hc rfl
  · intro h
    match gs, h with
    | _ :: ⟨c, escaped⟩ :: gs, ⟨rfl, hi⟩ =>
      cases escaped with
      | true => exact ⟨'\\', c :: Segment.toText gs, rfl, by decide⟩
      | false => exact ⟨c, Segment.toText gs, rfl, fun hc => hi (congrArg Glyph.bare hc)⟩

/-! ## Bracket expressions -/

theorem readItem_closing (rest : List Glyph) :
    readItem false (Segment.toText (.bare ']' :: rest)) = .ok (none, Segment.toText rest) := rfl

/-- At a glyph that begins an item and no name the reader reads one or two characters. -/
theorem readItem_toText_cons (hg : BeginsItem first g) (hpaired : g ≠ .bare '\\')
    (hname : ¬ (g = .bare '[' ∧ rest.head? = some (.bare ':'))) :
    readItem first (Segment.toText (g :: rest)) =
      if rangeAt (Segment.toText rest) then
        ((charMeantAt (Segment.toText rest).tail).mapError fun _ => .malformed).bind
          fun (high, behind) =>
            if high < g.char then .error .malformed
            else .ok (some (.range g.char high), behind)
      else .ok (some (.single g.char), Segment.toText rest) := by
  have hchar := charMeantAt_toText hpaired (Segment.toText rest)
  rw [Segment.toText_cons]
  obtain ⟨c, t, ht⟩ : ∃ c t, g.toText ++ Segment.toText rest = c :: t := by
    obtain ⟨c, escaped⟩ := g
    cases escaped <;> exact ⟨_, _, rfl⟩
  have hopen : ∀ {a : Char}, a ≠ '\\' → c = a → g = .bare a ∧ Segment.toText rest = t :=
    fun ha hc => Glyph.eq_bare_of_toText ha (hc ▸ ht)
  rw [ht] at hchar ⊢
  rw [readItem, if_neg, if_neg, hchar]
  · rfl
  · rintro ⟨hc, hcolon⟩
    obtain ⟨rfl, rfl⟩ := hopen (by decide) hc
    exact hname ⟨rfl, (head?_toText_iff (by decide) rest).mp hcolon⟩
  · rintro ⟨hc, rfl⟩
    exact absurd (hg (hopen (by decide) hc).1) (by decide)

/-- The reader takes the items that are there. -/
theorem readItem_of_takesItem (hgs : Paired gs) (h : TakesItem first gs item rest) :
    readItem first (Segment.toText gs) = .ok (some item, Segment.toText rest) := by
  cases h with
  | @named name k rest hk =>
    have htext : Segment.toText
        (.bare '[' :: .bare ':' :: (name.map .bare ++ .bare ':' :: .bare ']' :: rest)) =
          '[' :: ':' :: (name ++ ':' :: ']' :: Segment.toText rest) := by
      rw [Segment.toText_cons, Segment.toText_cons, Segment.toText_append, Segment.toText_map_bare]
      rfl
    rw [htext, readItem, if_neg (by simp), if_pos (by simp), List.tail_cons,
      cutAtNameEnd_append (colon_not_mem_of_lookup hk)]
    dsimp only
    rw [hk]
  | @range g i rest hg hi hle =>
    rw [readItem_toText_cons hg (hgs g List.mem_cons_self) (by simp [Glyph.bare]),
      if_pos ((rangeAt_toText_iff (.bare '-' :: i :: rest)).mpr ⟨rfl, hi⟩)]
    show ((charMeantAt (i.toText ++ Segment.toText rest)).mapError _).bind _ = _
    rw [charMeantAt_toText (hgs i (by simp))]
    exact if_neg (Char.not_lt.mpr hle)
  | @single g rest hg hname hrange =>
    rw [readItem_toText_cons hg (hgs g List.mem_cons_self) hname,
      if_neg fun h => hrange ((rangeAt_toText_iff _).mp h)]

/-- What is written at the beginning of a text without a backslash are bare glyphs. -/
theorem map_bare_prefix_of_toText {t : Text} (behind : Text) (ht : '\\' ∉ t)
    (h : Segment.toText gs = t ++ behind) : t.map .bare <+: gs := by
  induction t generalizing gs with
  | nil => exact List.nil_prefix
  | cons c t ih =>
    have hc : c ≠ '\\' := fun hc => ht (hc ▸ List.mem_cons_self)
    cases gs with
    | nil => cases h
    | cons g gs =>
      obtain ⟨rfl, hrest⟩ := Glyph.eq_bare_of_toText hc h
      have ht' : '\\' ∉ t := fun hmem => ht (List.mem_cons_of_mem c hmem)
      exact List.cons_prefix_cons.mpr ⟨rfl, ih ht' hrest⟩

/-- The reader finds a name that is known only where it stands with its end. -/
theorem readItem_of_not_known
    (h : ∀ name ∈ ClassName.written.map Prod.fst,
      ¬ name.map .bare ++ [.bare ':', .bare ']'] <+: gs) :
    readItem first (Segment.toText (.bare '[' :: .bare ':' :: gs)) = .error .malformed := by
  show readItem first ('[' :: ':' :: Segment.toText gs) = _
  rw [readItem, if_neg (by simp), if_pos (by simp), List.tail_cons]
  cases hcut : cutAtNameEnd (Segment.toText gs) with
  | none => rfl
  | some found =>
    obtain ⟨name, behind⟩ := found
    cases hk : ClassName.written.lookup name with
    | none => simp only [hk]
    | some k =>
      obtain ⟨as, bs, hsplit, -⟩ := List.lookup_eq_some_iff.mp hk
      have hmem : (name, k) ∈ ClassName.written := by simp [hsplit]
      have hall : ∀ entry ∈ ClassName.written, '\\' ∉ entry.1 := by decide
      have hprefix : (name ++ [':', ']']).map .bare <+: gs := by
        refine map_bare_prefix_of_toText behind ?_ ?_
        · simpa using hall _ hmem
        · rw [eq_append_of_cutAtNameEnd hcut, List.append_assoc]
          rfl
      rw [List.map_append] at hprefix
      exact absurd hprefix (h name (List.mem_map.mpr ⟨(name, k), hmem, rfl⟩))

/-- The reader stops at the faults that are there. -/
theorem readItem_of_fault (hgs : Paired gs) (h : Fault first gs) :
    readItem first (Segment.toText gs) = .error .malformed := by
  cases h with
  | unterminated => rfl
  | unterminatedName hnone =>
    exact readItem_of_not_known fun name _ => not_prefix_of_not_endsName hnone name
  | unknownName _ _ hunknown => exact readItem_of_not_known hunknown
  | @reversedRange g i rest hg hi hlt =>
    rw [readItem_toText_cons hg (hgs g List.mem_cons_self) (by simp [Glyph.bare]),
      if_pos ((rangeAt_toText_iff (.bare '-' :: i :: rest)).mpr ⟨rfl, hi⟩)]
    show ((charMeantAt (i.toText ++ Segment.toText rest)).mapError _).bind _ = _
    rw [charMeantAt_toText (hgs i (by simp))]
    exact if_pos hlt

/-- **The reader reads the items of a bracket expression from their text as they are read from the
glyphs.** -/
theorem readItems_toText (first : Bool) (hgs : Paired gs) :
    readItems first (Segment.toText gs) =
      ((classItems (.item first) gs).map fun (items, rest) =>
        (items, Segment.toText rest)).mapError fun _ => .malformed := by
  induction hn : gs.length using Nat.strongRecOn generalizing first gs with
  | ind n ih =>
    rcases closes_or_takesItem_or_fault first gs with
      ⟨rfl, rest, rfl⟩ | ⟨item, rest, htake⟩ | hfault
    · rw [readItems_of_none (readItem_closing rest), classItems_close]
      rfl
    · rw [readItems_of_some (readItem_of_takesItem hgs htake), classItems_of_takesItem htake,
        ih rest.length (hn ▸ htake.length_lt) false (hgs.of_suffix htake.suffix) rfl]
      cases classItems (.item false) rest <;> rfl
    · obtain ⟨e, he⟩ := exists_classItems_eq_error_of_fault hfault
      rw [readItems_of_error (readItem_of_fault hgs hfault), he]
      rfl

theorem itemsPart_suffix (gs : List Glyph) : itemsPart gs <:+ gs := by
  cases gs with
  | nil => exact List.suffix_rfl
  | cons g gs =>
    rw [itemsPart]
    split
    · exact List.suffix_cons g gs
    · exact List.suffix_rfl

theorem any_head?_toText (gs : List Glyph) :
    ((Segment.toText gs).head?.any fun c => c = '!' || c = '^') =
      gs.head?.any fun g => g = .bare '!' || g = .bare '^' := by
  cases gs with
  | nil => rfl
  | cons g gs =>
    obtain ⟨c, escaped⟩ := g
    cases escaped <;> simp [Segment.toText_cons, Glyph.toText, Glyph.bare]

theorem toText_itemsPart (gs : List Glyph) :
    Segment.toText (itemsPart gs) =
      if (Segment.toText gs).head?.any fun c => c = '!' || c = '^' then (Segment.toText gs).tail
      else Segment.toText gs := by
  rw [any_head?_toText]
  cases gs with
  | nil => rfl
  | cons g gs =>
    rw [itemsPart, List.head?_cons, Option.any_some]
    split
    · rename_i hg
      obtain rfl | rfl : g = .bare '!' ∨ g = .bare '^' := by simpa using hg
      · rfl
      · rfl
    · rfl

theorem readClass_toText (hgs : Paired gs) :
    readClass (Segment.toText gs) =
      ((CharClass.read gs).map fun (k, rest) => (k, Segment.toText rest)).mapError
        fun _ => .malformed := by
  rw [readClass, CharClass.read_eq]
  dsimp only
  rw [← toText_itemsPart, any_head?_toText,
    readItems_toText true (hgs.of_suffix (itemsPart_suffix gs))]
  cases classItems (.item true) (itemsPart gs) <;> rfl

/-! ## Segments -/

theorem toText_dropWhile_star (s : Segment) :
    Segment.toText (s.dropWhile (· = .bare '*')) = (Segment.toText s).dropWhile (· = '*') := by
  induction s with
  | nil => rfl
  | cons g s ih =>
    by_cases hg : g = .bare '*'
    · subst hg
      exact ih
    · obtain ⟨c, escaped⟩ := g
      rw [List.dropWhile_cons_of_neg (by simpa using hg), Segment.toText_cons]
      cases escaped with
      | true => rfl
      | false =>
        refine (List.dropWhile_cons_of_neg ?_).symm
        simpa [Glyph.bare] using hg

/-- Stars in a row are one piece. -/
theorem pieces_star (s : Segment) :
    pieces (.bare '*' :: s) = (pieces (s.dropWhile (· = .bare '*'))).map (.anyRun :: ·) := by
  induction s with
  | nil => rfl
  | cons g s ih =>
    by_cases hg : g = .bare '*'
    · subst hg
      rw [List.dropWhile_cons_of_pos (by simp), ← ih, pieces, piecesFrom, if_pos rfl,
        List.head?_cons, if_pos rfl]
      rfl
    · rw [List.dropWhile_cons_of_neg (by simpa using hg), pieces, piecesFrom, if_pos rfl,
        if_neg (by simpa using hg)]
      rfl

theorem pieces_anyChar (s : Segment) :
    pieces (.bare '?' :: s) = (pieces s).map (.anyChar :: ·) := by
  rw [pieces, piecesFrom, if_neg (by decide), if_pos rfl]
  rfl

theorem pieces_literal (hstar : g ≠ .bare '*') (hany : g ≠ .bare '?') (hopen : g ≠ .bare '[')
    (s : Segment) : pieces (g :: s) = (pieces s).map (.char g.char :: ·) := by
  rw [pieces, piecesFrom, if_neg hstar, if_neg hany, if_neg hopen]
  rfl

/-- **On the text of a segment every read is in range, and the pieces are those of its glyphs.** -/
theorem readPieces_toText (s : Segment) (hs : Paired s) :
    readPieces (Segment.toText s) = (pieces s).mapError fun _ => .malformed := by
  -- a bracket expression takes several glyphs at once, so the induction is on their number
  induction hn : s.length using Nat.strongRecOn generalizing s with
  | ind n ih =>
    cases s with
    | nil =>
      rw [Segment.toText, List.flatMap_nil, readPieces]
      rfl
    | cons g s =>
      have hrest : ∀ {rest : Segment} (p : Piece), rest <:+ s →
          (readPieces (Segment.toText rest)).map (p :: ·) =
            ((pieces rest).map (p :: ·)).mapError fun _ => .malformed := by
        intro rest p hsuffix
        rw [ih rest.length (hn ▸ Nat.lt_succ_of_le hsuffix.length_le) rest
          (hs.tail.of_suffix hsuffix) rfl]
        cases pieces rest <;> rfl
      obtain ⟨c, escaped⟩ := g
      cases escaped with
      | true =>
        rw [pieces_literal (by simp [Glyph.bare]) (by simp [Glyph.bare]) (by simp [Glyph.bare])]
        show readPieces ('\\' :: c :: Segment.toText s) = _
        rw [readPieces_cons, readPiece, if_pos rfl]
        exact hrest (.char c) List.suffix_rfl
      | false =>
        have hc : c ≠ '\\' := fun hc => hs ⟨c, false⟩ List.mem_cons_self (congrArg Glyph.bare hc)
        show readPieces (c :: Segment.toText s) = (pieces (.bare c :: s)).mapError _
        rw [readPieces_cons, readPiece, if_neg hc]
        by_cases hstar : c = '*'
        · subst hstar
          rw [if_pos rfl, pieces_star, ← toText_dropWhile_star]
          exact hrest .anyRun (List.dropWhile_suffix _)
        rw [if_neg hstar]
        by_cases hany : c = '?'
        · subst hany
          rw [if_pos rfl, pieces_anyChar]
          exact hrest .anyChar List.suffix_rfl
        rw [if_neg hany]
        by_cases hopen : c = '['
        · subst hopen
          rw [if_pos rfl, pieces_bracket, readClass_toText hs.tail]
          cases hread : CharClass.read s with
          | error e => rfl
          | ok found => exact hrest (.oneOf found.1) (CharClass.read_suffix hread)
        · rw [if_neg hopen, pieces_literal (by simpa [Glyph.bare] using hstar)
            (by simpa [Glyph.bare] using hany) (by simpa [Glyph.bare] using hopen)]
          exact hrest (.char c) List.suffix_rfl

/-- So no read looks behind the end of the text. -/
theorem readPieces_ne_outOfRange (s : Segment) (hs : Paired s) :
    readPieces (Segment.toText s) ≠ .error .outOfRange := by
  rw [readPieces_toText s hs]
  cases pieces s <;> nofun

/-! ## From the body to its segments -/

/-- **In the segments of a body every backslash has its partner.** -/
theorem paired_of_segments {t : Text} {ss : List Segment} (h : segments t = .ok ss)
    {s : Segment} (hs : s ∈ ss) : Paired s := by
  obtain ⟨gs, hgs, rfl⟩ := map_eq_ok_iff.mp h
  intro g hg
  exact ne_backslash_of_glyphs hgs (mem_of_mem_cutAtSlashes (List.mem_of_mem_filter hs) hg).1

theorem cutAtSlashes_ne_nil (gs : List Glyph) : cutAtSlashes gs ≠ [] := by
  cases gs with
  | nil => simp [cutAtSlashes]
  | cons g gs =>
    rw [cutAtSlashes]
    split
    · simp
    · split <;> simp

/-- The texts of the segments, with the slashes between them, make up the body. -/
theorem joinWith_cutAtSlashes (gs : List Glyph) :
    Text.joinWith '/' ((cutAtSlashes gs).map Segment.toText) = Segment.toText gs := by
  induction gs with
  | nil => rfl
  | cons g gs ih =>
    rw [cutAtSlashes]
    split
    · rename_i hg
      rw [List.map_cons, Text.joinWith_cons '/' _ (by simpa using cutAtSlashes_ne_nil gs), ih, hg]
      rfl
    · cases hcut : cutAtSlashes gs with
      | nil => exact absurd hcut (cutAtSlashes_ne_nil gs)
      | cons s ss =>
        rw [hcut] at ih
        rw [Segment.toText_cons, ← ih]
        cases ss with
        | nil => rfl
        | cons s' ss =>
          simp only [List.map_cons, Text.joinWith, Segment.toText_cons, List.append_assoc]

end PathFilter.Pattern
