import PathFilter.Proofs.PatternMeaning

/-! # Bracket expressions that cannot be read

A bracket expression is read item by item.  An item is a known name such as `[:alpha:]`, a range
of characters, or a single character (`TakesItem`); a closing bracket that is not the first item
ends the expression (`Closes`).  Reading comes to nothing if the glyphs are used up before that, if
`[:` is not followed by a known name and `:]`, or if the upper end of a range is below its lower
end (`Fault`, and `Faulty` for the expression).

* At an item the reading ends the expression, takes the item or is at fault
  (`closes_or_takesItem_or_fault`); so it is read to its closing bracket or up to a fault, and
  never both (`classItems_cases`, `exists_read_eq_ok_iff`, `exists_read_eq_error_iff`).
* **A segment has no pieces exactly if a scan from the left meets a faulty bracket expression**
  (`exists_pieces_eq_error_iff`).  A scan passes over escaped brackets and over whole expressions
  (`Meets`).
-/

namespace PathFilter.Pattern
variable {first : Bool} {g : Glyph} {gs rest : List Glyph} {item : ClassItem}

/-! ## Items -/

/-- Whether `:]` stands at the beginning, as the end of a name. -/
def EndsName : List Glyph → Prop
  | g :: h :: _ => g.char = ':' ∧ h = .bare ']'
  | _ => False

/-- Whether a glyph can begin an item: a closing bracket can where it comes first. -/
def BeginsItem (first : Bool) (g : Glyph) : Prop := g = .bare ']' → first = true

/-- Whether a dash and the upper end of a range follow. -/
def ContinuesRange : List Glyph → Prop
  | h :: i :: _ => h = .bare '-' ∧ i ≠ .bare ']'
  | _ => False

/-- The item at the beginning of what is left of a bracket expression, and what stands behind
it. -/
inductive TakesItem (first : Bool) : List Glyph → ClassItem → List Glyph → Prop where
  | named {name : Text} {k : ClassName} {rest : List Glyph} :
      ClassName.written.lookup name = some k →
        TakesItem first
          (.bare '[' :: .bare ':' :: (name.map .bare ++ .bare ':' :: .bare ']' :: rest))
          (.named k) rest
  | range {g i : Glyph} {rest : List Glyph} :
      BeginsItem first g → i ≠ .bare ']' → g.char ≤ i.char →
        TakesItem first (g :: .bare '-' :: i :: rest) (.range g.char i.char) rest
  | single {g : Glyph} {rest : List Glyph} :
      BeginsItem first g → ¬ (g = .bare '[' ∧ rest.head? = some (.bare ':')) →
        ¬ ContinuesRange rest → TakesItem first (g :: rest) (.single g.char) rest

/-- What is at fault at an item: there is none left, or it is a name that has no end or is not
known, or a range whose ends are in the wrong order. -/
inductive Fault (first : Bool) : List Glyph → Prop where
  | unterminated : Fault first []
  | unterminatedName {gs : List Glyph} :
      (∀ s, s <:+ gs → ¬ EndsName s) → Fault first (.bare '[' :: .bare ':' :: gs)
  | unknownName {gs s : List Glyph} :
      s <:+ gs → EndsName s →
        (∀ name ∈ ClassName.written.map Prod.fst,
          ¬ name.map .bare ++ [.bare ':', .bare ']'] <+: gs) →
        Fault first (.bare '[' :: .bare ':' :: gs)
  | reversedRange {g i : Glyph} {rest : List Glyph} :
      BeginsItem first g → i ≠ .bare ']' → i.char < g.char →
        Fault first (g :: .bare '-' :: i :: rest)

/-- The items of a bracket expression are read up to its closing bracket, behind which `rest`
stands. -/
inductive Closes : Bool → List Glyph → List Glyph → Prop where
  | close {rest : List Glyph} : Closes false (.bare ']' :: rest) rest
  | item {first : Bool} {gs gs' rest : List Glyph} {item : ClassItem} :
      TakesItem first gs item gs' → Closes false gs' rest → Closes first gs rest

/-- The items of a bracket expression are read up to one that is at fault. -/
inductive Faulty : Bool → List Glyph → Prop where
  | fault {first : Bool} {gs : List Glyph} : Fault first gs → Faulty first gs
  | item {first : Bool} {gs gs' : List Glyph} {item : ClassItem} :
      TakesItem first gs item gs' → Faulty false gs' → Faulty first gs

/-- The items of a bracket expression behind its opening bracket: a `!` or `^` that turns it round
is none. -/
def itemsPart : List Glyph → List Glyph
  | [] => []
  | g :: rest => if g = .bare '!' || g = .bare '^' then rest else g :: rest

/-- A scan of a segment from the left meets the bracket expression whose opening bracket stands
before `inside`. -/
inductive Meets : Segment → List Glyph → Prop where
  | here {inside : List Glyph} : Meets (.bare '[' :: inside) inside
  | past {g : Glyph} {s inside : List Glyph} :
      g ≠ .bare '[' → Meets s inside → Meets (g :: s) inside
  | behind {gs s inside : List Glyph} :
      Closes true (itemsPart gs) s → Meets s inside → Meets (.bare '[' :: gs) inside

theorem TakesItem.length_lt (h : TakesItem first gs item rest) : rest.length < gs.length := by
  cases h with
  | named => simp only [List.length_cons, List.length_append]; omega
  | range => simp only [List.length_cons]; omega
  | single => simp only [List.length_cons]; omega

/-! ## Names -/

theorem colon_not_mem_of_lookup {name : Text} {k : ClassName}
    (h : ClassName.written.lookup name = some k) : ':' ∉ name := by
  have hall : ∀ entry ∈ ClassName.written, ':' ∉ entry.1 := by decide
  obtain ⟨as, bs, heq, -⟩ := List.lookup_eq_some_iff.mp h
  exact hall (name, k) (by simp [heq])

theorem map_bare_eq {gs : List Glyph} (h : gs.any Glyph.escaped = false) :
    (gs.map Glyph.char).map .bare = gs := by
  induction gs with
  | nil => rfl
  | cons g gs ih =>
    obtain ⟨hg, hgs⟩ := Bool.or_eq_false_iff.mp h
    obtain ⟨c, escaped⟩ := g
    obtain rfl : escaped = false := hg
    rw [List.map_cons, List.map_cons, ih hgs]
    rfl

/-- Glyphs are a name if they are written as one and none of them is escaped. -/
theorem ofGlyphs_eq_ok_iff {k : ClassName} :
    ClassName.ofGlyphs gs = .ok k ↔
      ∃ name, ClassName.written.lookup name = some k ∧ gs = name.map .bare := by
  rw [ClassName.ofGlyphs]
  constructor
  · intro h
    split at h
    · rename_i k' hk
      split at h
      · cases h
      · rename_i hesc
        cases h
        exact ⟨_, hk, (map_bare_eq (by simpa using hesc)).symm⟩
    · cases h
  · rintro ⟨name, hk, rfl⟩
    have hchars : (name.map Glyph.bare).map Glyph.char = name := by
      rw [List.map_map]
      exact List.map_id name
    have hesc : (name.map Glyph.bare).any Glyph.escaped = false := by
      rw [List.any_map]
      exact List.any_eq_false.mpr fun c _ => by simp [Glyph.bare]
    rw [hchars, hk, hesc]
    rfl

/-- Within a name the glyphs up to the first `:]` are collected. -/
theorem classItems_name (read : List Glyph) (gs : List Glyph) :
    ((∀ s, s <:+ gs → ¬ EndsName s) ∧
        classItems (.name read) gs = .error .unterminatedClassName) ∨
      ∃ name g rest, gs = name ++ g :: .bare ']' :: rest ∧ g.char = ':' ∧
        classItems (.name read) gs =
          (ClassName.ofGlyphs (if g.escaped then read ++ name ++ [g] else read ++ name)).bind
            fun k => (classItems (.item false) rest).map fun (items, behind) =>
              (.named k :: items, behind) := by
  induction gs generalizing read with
  | nil =>
    refine .inl ⟨fun s hs => ?_, rfl⟩
    rw [List.suffix_nil.mp hs]
    exact id
  | cons g gs ih =>
    cases gs with
    | nil =>
      refine .inl ⟨fun s hs => ?_, rfl⟩
      rcases List.suffix_cons_iff.mp hs with rfl | hs
      · exact id
      · rw [List.suffix_nil.mp hs]
        exact id
    | cons h rest =>
      by_cases hend : g.char = ':' ∧ h = .bare ']'
      · obtain ⟨hg, rfl⟩ := hend
        refine .inr ⟨[], g, rest, rfl, hg, ?_⟩
        rw [classItems, if_pos (by simp [hg]), List.append_nil]
        rfl
      · have hstep : classItems (.name read) (g :: h :: rest) =
            classItems (.name (read ++ [g])) (h :: rest) := by
          rw [classItems, if_neg (by simpa using hend)]
        rcases ih (read ++ [g]) with ⟨hnone, heq⟩ | ⟨name, g', rest', hsplit, hg', heq⟩
        · refine .inl ⟨fun s hs => ?_, hstep.trans heq⟩
          rcases List.suffix_cons_iff.mp hs with rfl | hs
          · exact hend
          · exact hnone s hs
        · refine .inr ⟨g :: name, g', rest', congrArg (g :: ·) hsplit, hg', ?_⟩
          rw [hstep, heq, List.append_assoc read [g] name, List.singleton_append]

/-- A name that ends where it is written to its end. -/
theorem classItems_name_append {name : Text} (hname : ':' ∉ name) (read rest : List Glyph) :
    classItems (.name read) (name.map .bare ++ .bare ':' :: .bare ']' :: rest) =
      (ClassName.ofGlyphs (read ++ name.map .bare)).bind
        fun k => (classItems (.item false) rest).map fun (items, behind) =>
          (.named k :: items, behind) := by
  induction name generalizing read with
  | nil =>
    rw [List.map_nil, List.nil_append, classItems, if_pos (by simp [Glyph.bare]), List.append_nil]
    rfl
  | cons c name ih =>
    have hc : c ≠ ':' := fun h => hname (h ▸ List.mem_cons_self)
    obtain ⟨g, tail, htail⟩ :
        ∃ g tail, name.map Glyph.bare ++ .bare ':' :: .bare ']' :: rest = g :: tail := by
      cases name with
      | nil => exact ⟨_, _, rfl⟩
      | cons d name => exact ⟨_, _, rfl⟩
    rw [List.map_cons, List.cons_append, htail, classItems,
      if_neg (by simp [Glyph.bare, hc]), ← htail, ih (fun h => hname (List.mem_cons_of_mem c h)),
      List.append_assoc, List.singleton_append]

/-! ## One item -/

/-- Taking an item leaves the reading at the next one. -/
theorem classItems_of_takesItem (h : TakesItem first gs item rest) :
    classItems (.item first) gs =
      (classItems (.item false) rest).map fun (items, behind) => (item :: items, behind) := by
  cases h with
  | @named name k rest hk =>
    obtain ⟨g, tail, htail⟩ :
        ∃ g tail, name.map Glyph.bare ++ .bare ':' :: .bare ']' :: rest = g :: tail := by
      cases name with
      | nil => exact ⟨_, _, rfl⟩
      | cons d name => exact ⟨_, _, rfl⟩
    rw [htail, classItems, if_neg (by simp [Glyph.bare]), if_pos (by simp), ← htail,
      classItems_name_append (colon_not_mem_of_lookup hk), List.nil_append,
      ofGlyphs_eq_ok_iff.mpr ⟨name, hk, rfl⟩]
    rfl
  | @range g i rest hg hi hle =>
    rw [classItems, if_neg (by simpa [BeginsItem] using hg), if_neg (by simp [Glyph.bare]),
      if_pos (by simpa using hi), if_neg (Char.not_lt.mpr hle)]
  | @single g rest hg hname hrange =>
    cases rest with
    | nil =>
      rw [classItems.eq_2, if_neg (by simpa [BeginsItem] using hg)]
      rfl
    | cons h rest =>
      cases rest with
      | nil =>
        rw [classItems.eq_3, if_neg (by simpa [BeginsItem] using hg), if_neg (by simpa using hname)]
      | cons i rest =>
        rw [classItems, if_neg (by simpa [BeginsItem] using hg), if_neg (by simpa using hname),
          if_neg (by simpa [ContinuesRange] using hrange)]

/-- Glyphs that are not a known name with its end do not make an item. -/
theorem exists_classItems_name_eq_error
    (h : ∀ name ∈ ClassName.written.map Prod.fst,
      ¬ name.map .bare ++ [.bare ':', .bare ']'] <+: gs) :
    ∃ e, classItems (.name []) gs = .error e := by
  rcases classItems_name [] gs with ⟨-, heq⟩ | ⟨name, g, rest, rfl, hg, heq⟩
  · exact ⟨_, heq⟩
  · rw [heq, List.nil_append]
    cases hk : ClassName.ofGlyphs (if g.escaped then name ++ [g] else name) with
    | error e => exact ⟨e, rfl⟩
    | ok k =>
      obtain ⟨written, hwritten, heq⟩ := ofGlyphs_eq_ok_iff.mp hk
      have hbare : ∀ a ∈ written.map Glyph.bare, a.escaped = false := by simp [Glyph.bare]
      obtain ⟨c, escaped⟩ := g
      obtain rfl : c = ':' := hg
      obtain rfl : escaped = false := by
        cases escaped with
        | false => rfl
        | true => exact hbare ⟨':', true⟩ (by rw [← heq]; simp)
      obtain rfl : name = written.map .bare := heq
      obtain ⟨as, bs, hsplit, -⟩ := List.lookup_eq_some_iff.mp hwritten
      refine absurd ?_ (h written (List.mem_map.mpr ⟨(written, k), by simp [hsplit], rfl⟩))
      exact ⟨rest, by simp [Glyph.bare]⟩

/-- Where no name ends, none stands with its end. -/
theorem not_prefix_of_not_endsName (h : ∀ s, s <:+ gs → ¬ EndsName s) (name : Text) :
    ¬ name.map .bare ++ [.bare ':', .bare ']'] <+: gs := by
  rintro ⟨rest, rfl⟩
  exact h (.bare ':' :: .bare ']' :: rest) ⟨name.map .bare, by simp⟩ ⟨rfl, rfl⟩

/-- An item at fault is the end of the reading. -/
theorem exists_classItems_eq_error_of_fault (h : Fault first gs) :
    ∃ e, classItems (.item first) gs = .error e := by
  have hname : ∀ {gs : List Glyph}, (∃ e, classItems (.name []) gs = .error e) →
      ∃ e, classItems (.item first) (.bare '[' :: .bare ':' :: gs) = .error e := by
    rintro gs ⟨e, he⟩
    cases gs with
    | nil => exact ⟨.unterminatedClassName, rfl⟩
    | cons g gs =>
      exact ⟨e, by rw [classItems, if_neg (by simp [Glyph.bare]), if_pos (by simp), he]⟩
  cases h with
  | unterminated => exact ⟨.unterminatedClass, rfl⟩
  | unterminatedName hnone =>
    exact hname (exists_classItems_name_eq_error fun name _ =>
      not_prefix_of_not_endsName hnone name)
  | unknownName _ _ hunknown => exact hname (exists_classItems_name_eq_error hunknown)
  | @reversedRange g i rest hg hi hlt =>
    refine ⟨.reversedRange g.char i.char, ?_⟩
    rw [classItems, if_neg (by simpa [BeginsItem] using hg), if_neg (by simp [Glyph.bare]),
      if_pos (by simpa using hi), if_pos hlt]

/-- **At an item the reading ends the expression, takes the item, or is at fault.** -/
theorem closes_or_takesItem_or_fault (first : Bool) (gs : List Glyph) :
    (first = false ∧ ∃ rest, gs = .bare ']' :: rest) ∨
      (∃ item rest, TakesItem first gs item rest) ∨ Fault first gs := by
  cases gs with
  | nil => exact .inr (.inr .unterminated)
  | cons g rest =>
    by_cases hg : BeginsItem first g
    swap
    · obtain ⟨rfl, hfirst⟩ : g = .bare ']' ∧ first = false := by simpa [BeginsItem] using hg
      exact .inl ⟨hfirst, rest, rfl⟩
    refine .inr ?_
    by_cases hname : g = .bare '[' ∧ rest.head? = some (.bare ':')
    · obtain ⟨rfl, hhead⟩ := hname
      obtain ⟨gs, rfl⟩ := List.head?_eq_some_iff.mp hhead
      by_cases hknown : ∃ name ∈ ClassName.written.map Prod.fst,
          name.map .bare ++ [.bare ':', .bare ']'] <+: gs
      · obtain ⟨name, hname, tail, rfl⟩ := hknown
        have hlookup : ∀ name ∈ ClassName.written.map Prod.fst,
            (ClassName.written.lookup name).isSome = true := by decide
        obtain ⟨k, hk⟩ := Option.isSome_iff_exists.mp (hlookup name hname)
        refine .inl ⟨.named k, tail, ?_⟩
        rw [List.append_assoc]
        exact .named hk
      · by_cases hend : ∃ s, s <:+ gs ∧ EndsName s
        · obtain ⟨s, hs, hend⟩ := hend
          exact .inr (.unknownName hs hend fun name hname h => hknown ⟨name, hname, h⟩)
        · exact .inr (.unterminatedName fun s hs h => hend ⟨s, hs, h⟩)
    · by_cases hrange : ContinuesRange rest
      · match rest, hrange with
        | _ :: i :: tail, ⟨rfl, hi⟩ =>
          by_cases hlt : i.char < g.char
          · exact .inr (.reversedRange hg hi hlt)
          · exact .inl ⟨_, _, .range hg hi (Char.not_lt.mp hlt)⟩
      · exact .inl ⟨_, _, .single hg hname hrange⟩

/-! ## Whole expressions -/

theorem classItems_close (rest : List Glyph) :
    classItems (.item false) (.bare ']' :: rest) = .ok ([], rest) := by
  match rest with
  | [] => rfl
  | [_] => rfl
  | _ :: _ :: _ => rfl

/-- The items are read to the end, or up to a fault, and the two exclude each other. -/
theorem classItems_cases (first : Bool) (gs : List Glyph) :
    (∃ items rest, classItems (.item first) gs = .ok (items, rest) ∧ Closes first gs rest) ∨
      (∃ e, classItems (.item first) gs = .error e) ∧ Faulty first gs := by
  induction hn : gs.length using Nat.strongRecOn generalizing first gs with
  | ind n ih =>
    rcases closes_or_takesItem_or_fault first gs with
      ⟨rfl, rest, rfl⟩ | ⟨item, gs', htake⟩ | hfault
    · exact .inl ⟨[], rest, classItems_close rest, .close⟩
    · have hread := classItems_of_takesItem htake
      rcases ih gs'.length (hn ▸ htake.length_lt) false gs' rfl with
        ⟨items, rest, heq, hcloses⟩ | ⟨⟨e, heq⟩, hfaulty⟩
      · exact .inl ⟨item :: items, rest, by rw [hread, heq]; rfl, .item htake hcloses⟩
      · exact .inr ⟨⟨e, by rw [hread, heq]; rfl⟩, .item htake hfaulty⟩
    · exact .inr ⟨exists_classItems_eq_error_of_fault hfault, .fault hfault⟩

theorem Closes.exists_classItems_eq_ok (h : Closes first gs rest) :
    ∃ items, classItems (.item first) gs = .ok (items, rest) := by
  induction h with
  | close => exact ⟨[], classItems_close _⟩
  | item htake _ ih =>
    obtain ⟨items, heq⟩ := ih
    exact ⟨_, by rw [classItems_of_takesItem htake, heq]; rfl⟩

theorem Faulty.exists_classItems_eq_error (h : Faulty first gs) :
    ∃ e, classItems (.item first) gs = .error e := by
  induction h with
  | fault hfault => exact exists_classItems_eq_error_of_fault hfault
  | item htake _ ih =>
    obtain ⟨e, heq⟩ := ih
    exact ⟨e, by rw [classItems_of_takesItem htake, heq]; rfl⟩

/-- A bracket expression is read as its items are, and turned round by what stands before them. -/
theorem CharClass.read_eq (gs : List Glyph) :
    CharClass.read gs = (classItems (.item true) (itemsPart gs)).map fun (items, rest) =>
      (⟨gs.head?.any fun g => g = .bare '!' || g = .bare '^', items⟩, rest) := by
  cases gs with
  | nil => rfl
  | cons g rest =>
    rw [CharClass.read, itemsPart]
    rfl

theorem exists_read_eq_ok_iff : (∃ k, CharClass.read gs = .ok (k, rest)) ↔
    Closes true (itemsPart gs) rest := by
  rw [CharClass.read_eq]
  constructor
  · rintro ⟨k, h⟩
    obtain ⟨⟨items, rest'⟩, hitems, heq⟩ := map_eq_ok_iff.mp h
    cases heq
    rcases classItems_cases true (itemsPart gs) with ⟨_, _, heq, hcloses⟩ | ⟨⟨e, heq⟩, -⟩
    · cases heq.symm.trans hitems
      exact hcloses
    · cases heq.symm.trans hitems
  · intro h
    obtain ⟨items, heq⟩ := h.exists_classItems_eq_ok
    exact ⟨_, by rw [heq]; rfl⟩

theorem exists_read_eq_error_iff : (∃ e, CharClass.read gs = .error e) ↔
    Faulty true (itemsPart gs) := by
  rw [CharClass.read_eq, exists_map_eq_error_iff]
  constructor
  · rintro ⟨e, h⟩
    rcases classItems_cases true (itemsPart gs) with ⟨_, _, heq, -⟩ | ⟨-, hfaulty⟩
    · cases heq.symm.trans h
    · exact hfaulty
  · exact Faulty.exists_classItems_eq_error

/-! ## Segments -/

/-- The pieces of a segment that begins with no opening bracket come from those of the rest. -/
theorem exists_pieces_cons_eq_map (hg : g ≠ .bare '[') (s : Segment) :
    ∃ f, pieces (g :: s) = (pieces s).map f := by
  rw [pieces, piecesFrom, pieces]
  by_cases hstar : g = .bare '*'
  · rw [if_pos hstar]
    split
    · exact ⟨id, by cases piecesFrom 0 s <;> rfl⟩
    · exact ⟨_, rfl⟩
  · rw [if_neg hstar, if_neg hg]
    split
    · exact ⟨_, rfl⟩
    · exact ⟨_, rfl⟩

/-- Those of one that begins with a bracket expression come from what stands behind that. -/
theorem pieces_bracket (gs : List Glyph) :
    pieces (.bare '[' :: gs) = (CharClass.read gs).bind fun (k, behind) =>
      (pieces behind).map (.oneOf k :: ·) := by
  rw [pieces, piecesFrom, if_neg (by decide), if_neg (by decide), if_pos rfl]
  cases h : CharClass.read gs with
  | error e => rfl
  | ok found =>
    obtain ⟨k, behind⟩ := found
    show (piecesFrom (gs.length - behind.length) gs).map _ = _
    rw [piecesFrom_eq_drop, ← List.suffix_iff_eq_drop.mp (CharClass.read_suffix h)]
    rfl

/-- **A segment has no pieces exactly if a scan from the left meets a faulty bracket
expression.** -/
theorem exists_pieces_eq_error_iff (s : Segment) :
    (∃ e, pieces s = .error e) ↔ ∃ inside, Meets s inside ∧ Faulty true (itemsPart inside) := by
  constructor
  · -- a bracket expression takes several glyphs at once, so the induction is on their number
    induction hn : s.length using Nat.strongRecOn generalizing s with
    | ind n ih =>
      rintro ⟨e, he⟩
      cases s with
      | nil => cases he
      | cons g s =>
        by_cases hg : g = .bare '['
        · subst hg
          rw [pieces_bracket] at he
          cases hread : CharClass.read s with
          | error e' => exact ⟨s, .here, exists_read_eq_error_iff.mp ⟨e', hread⟩⟩
          | ok found =>
            obtain ⟨k, behind⟩ := found
            rw [hread] at he
            have hlt : behind.length < n := by
              rw [← hn]
              exact Nat.lt_succ_of_le (CharClass.read_suffix hread).length_le
            obtain ⟨inside, hmeets, hfaulty⟩ :=
              ih behind.length hlt behind rfl (exists_map_eq_error_iff.mp ⟨e, he⟩)
            exact ⟨inside, .behind (exists_read_eq_ok_iff.mp ⟨k, hread⟩) hmeets, hfaulty⟩
        · obtain ⟨f, hf⟩ := exists_pieces_cons_eq_map hg s
          rw [hf] at he
          obtain ⟨inside, hmeets, hfaulty⟩ :=
            ih s.length (by rw [← hn]; exact Nat.lt_succ_self _) s rfl
              (exists_map_eq_error_iff.mp ⟨e, he⟩)
          exact ⟨inside, .past hg hmeets, hfaulty⟩
  · rintro ⟨inside, hmeets, hfaulty⟩
    induction hmeets with
    | here =>
      obtain ⟨e, he⟩ := exists_read_eq_error_iff.mpr hfaulty
      exact ⟨e, by rw [pieces_bracket, he]; rfl⟩
    | past hg _ ih =>
      obtain ⟨f, hf⟩ := exists_pieces_cons_eq_map hg _
      rw [hf]
      exact exists_map_eq_error_iff.mpr (ih hfaulty)
    | behind hcloses _ ih =>
      obtain ⟨k, hread⟩ := exists_read_eq_ok_iff.mpr hcloses
      rw [pieces_bracket, hread]
      exact exists_map_eq_error_iff.mpr (ih hfaulty)

end PathFilter.Pattern
