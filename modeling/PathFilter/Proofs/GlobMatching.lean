import PathFilter.Pattern.PathPattern

/-! # What globs match

The matchers of globs try the ways to divide a text in a fixed order and pass on what is
left.  This module says which texts a glob matches (`PiecesMatch`, `StepsMatch`), without any
order, and then what the order adds.

* A matcher succeeds only on a division that the relation admits (`matchPieces_sound`,
  `matchSteps_sound`), and it succeeds wherever one is admitted (`matchPieces_isSome`,
  `findsLeast`).
* A component glob consumes a fixed number of slashes, so what it may leave behind is determined
  by where it begins (`eq_of_piecesMatch`, `exists_append_of_piecesMatch`).
* **The first division found leaves the least text behind** (`findsLeast`), since a
  stretch of any depth is tried at its longest first, and a glob that can begin further down the
  path need not end further up (`Leaves.of_after`).

For path patterns this decides which of its two ways to meet a path is found
(`meets_eq_itself_iff`, `meets_eq_inside_iff`): a pattern that matches the path itself is never
found to match a directory above it instead.
-/

namespace PathFilter.Pattern

/-- The texts that a component glob matches. -/
inductive PiecesMatch : List Piece → Text → Prop where
  | nil : PiecesMatch [] []
  | char {c : Char} {ps : List Piece} {m : Text} :
      PiecesMatch ps m → PiecesMatch (.char c :: ps) (c :: m)
  | anyChar {c : Char} {ps : List Piece} {m : Text} :
      c ≠ '/' → PiecesMatch ps m → PiecesMatch (.anyChar :: ps) (c :: m)
  | anyRun {u : Text} {ps : List Piece} {m : Text} :
      '/' ∉ u → PiecesMatch ps m → PiecesMatch (.anyRun :: ps) (u ++ m)
  | oneOf {k : CharClass} {c : Char} {ps : List Piece} {m : Text} :
      k.admits c = true → PiecesMatch ps m → PiecesMatch (.oneOf k :: ps) (c :: m)

/-- The texts that a glob matches.  A stretch of any depth before other steps takes nothing, or
everything up to some slash. -/
inductive StepsMatch : List Step → Text → Prop where
  | nil : StepsMatch [] []
  | component {ps : List Piece} {m : Text} :
      PiecesMatch ps m → StepsMatch [.component ps] m
  | rest {t : Text} : t ≠ [] → StepsMatch [.anyDepth] t
  | slash {ps : List Piece} {step : Step} {steps : List Step} {m t : Text} :
      PiecesMatch ps m → StepsMatch (step :: steps) t →
        StepsMatch (.component ps :: step :: steps) (m ++ '/' :: t)
  | none {step : Step} {steps : List Step} {t : Text} :
      StepsMatch (step :: steps) t → StepsMatch (.anyDepth :: step :: steps) t
  | some {step : Step} {steps : List Step} {v t : Text} :
      StepsMatch (step :: steps) t → StepsMatch (.anyDepth :: step :: steps) (v ++ '/' :: t)

/-- `u` stands behind a slash of `t`. -/
def After (t u : Text) : Prop := ∃ v, t = v ++ '/' :: u

/-- Nothing is left of a text but what lies below a directory. -/
def Ends (r : Text) : Prop := r = [] ∨ ∃ below, r = '/' :: below

/-- A glob can match the beginning of a text and leave `r`. -/
def Leaves (steps : List Step) (t r : Text) : Prop := ∃ m, t = m ++ r ∧ StepsMatch steps m

/-! ## Standing behind a slash -/

theorem after_cons_iff {c : Char} {t u : Text} :
    After (c :: t) u ↔ (c = '/' ∧ u = t) ∨ After t u := by
  constructor
  · rintro ⟨v, h⟩
    cases v with
    | nil =>
      obtain ⟨rfl, rfl⟩ := List.cons.inj h
      exact Or.inl ⟨rfl, rfl⟩
    | cons a v =>
      obtain ⟨rfl, rfl⟩ := List.cons.inj h
      exact Or.inr ⟨v, rfl⟩
  · rintro (⟨rfl, rfl⟩ | ⟨v, rfl⟩)
    · exact ⟨[], rfl⟩
    · exact ⟨c :: v, rfl⟩

theorem After.length_lt {t u : Text} (h : After t u) : u.length < t.length := by
  obtain ⟨v, rfl⟩ := h
  simp only [List.length_append, List.length_cons]
  omega

theorem After.trans {s t u : Text} (hst : After s t) (htu : After t u) : After s u := by
  obtain ⟨v, rfl⟩ := hst
  obtain ⟨w, rfl⟩ := htu
  exact ⟨v ++ '/' :: w, by simp⟩

/-- Of two texts that stand behind slashes of the same text, the shorter one stands behind a
slash of the longer one. -/
theorem After.of_length_le {t u w : Text} (hu : After t u) (hw : After t w)
    (hle : w.length ≤ u.length) : w = u ∨ After u w := by
  obtain ⟨v, rfl⟩ := hu
  obtain ⟨x, hx⟩ := hw
  rw [show v ++ '/' :: u = (v ++ ['/']) ++ u from by simp,
    show x ++ '/' :: w = (x ++ ['/']) ++ w from by simp] at hx
  rcases List.append_eq_append_iff.mp hx with ⟨y, hy, hu⟩ | ⟨y, -, hw⟩
  · rcases List.eq_nil_or_concat y with rfl | ⟨z, c, rfl⟩
    · exact Or.inl hu.symm
    · -- the slash before `w` is the last character of what `u` has before `w`
      rw [List.concat_eq_append, ← List.append_assoc] at hy
      obtain ⟨-, hc⟩ := List.append_inj' hy rfl
      obtain ⟨rfl, -⟩ := List.cons.inj hc
      exact Or.inr ⟨z, by rw [hu]; simp⟩
  · -- otherwise `u` would be the shorter one
    have hlen := congrArg List.length hw
    rw [List.length_append] at hlen
    have hy : y = [] := List.length_eq_zero_iff.mp (by omega)
    exact Or.inl (by rw [hw, hy, List.nil_append])

/-! ## Component globs -/

section Pieces
variable {α : Type} {next : Text → Option α} {ps : List Piece}

theorem afterRun_sound {t : Text} {a : α} (h : afterRun next t = some a) :
    ∃ u r, t = u ++ r ∧ '/' ∉ u ∧ next r = some a := by
  induction t with
  | nil => exact ⟨[], [], rfl, List.not_mem_nil, h⟩
  | cons c t ih =>
    rw [afterRun] at h
    split at h
    · exact ⟨[], c :: t, rfl, List.not_mem_nil, h⟩
    · rename_i hc
      split at h
      · rename_i found hfound
        obtain ⟨u, r, rfl, hu, hr⟩ := ih (hfound.trans h)
        refine ⟨c :: u, r, rfl, fun hm => ?_, hr⟩
        exact (List.mem_cons.mp hm).elim (fun e => hc e.symm) hu
      · exact ⟨[], c :: t, rfl, List.not_mem_nil, h⟩

theorem afterRun_isSome {u r : Text} (hu : '/' ∉ u) (hr : (next r).isSome) :
    (afterRun next (u ++ r)).isSome := by
  induction u with
  | nil =>
    cases r with
    | nil => exact hr
    | cons c r =>
      rw [List.nil_append, afterRun]
      split
      · exact hr
      · split
        · rfl
        · exact hr
  | cons c u ih =>
    obtain ⟨hc, hu⟩ := List.ne_and_not_mem_of_not_mem_cons hu
    rw [List.cons_append, afterRun, if_neg (Ne.symm hc)]
    obtain ⟨found, hfound⟩ := Option.isSome_iff_exists.mp (ih hu)
    rw [hfound]
    rfl

theorem matchPieces_sound {t : Text} {a : α} (h : matchPieces next ps t = some a) :
    ∃ m r, t = m ++ r ∧ PiecesMatch ps m ∧ next r = some a := by
  induction ps generalizing t with
  | nil => exact ⟨[], t, rfl, .nil, by simpa [matchPieces] using h⟩
  | cons p ps ih =>
    cases p with
    | anyRun =>
      rw [matchPieces] at h
      obtain ⟨u, s, rfl, hu, hs⟩ := afterRun_sound h
      obtain ⟨m, r, rfl, hm, hr⟩ := ih hs
      exact ⟨u ++ m, r, (List.append_assoc ..).symm, .anyRun hu hm, hr⟩
    | char a =>
      cases t with
      | nil => simp [matchPieces] at h
      | cons c t =>
        rw [matchPieces] at h
        split at h
        · rename_i hc
          obtain ⟨m, r, rfl, hm, hr⟩ := ih h
          exact ⟨c :: m, r, rfl, hc ▸ .char hm, hr⟩
        · cases h
    | anyChar =>
      cases t with
      | nil => simp [matchPieces] at h
      | cons c t =>
        rw [matchPieces] at h
        split at h
        · cases h
        · rename_i hc
          obtain ⟨m, r, rfl, hm, hr⟩ := ih h
          exact ⟨c :: m, r, rfl, .anyChar hc hm, hr⟩
    | oneOf k =>
      cases t with
      | nil => simp [matchPieces] at h
      | cons c t =>
        rw [matchPieces] at h
        split at h
        · rename_i hc
          obtain ⟨m, r, rfl, hm, hr⟩ := ih h
          exact ⟨c :: m, r, rfl, .oneOf hc hm, hr⟩
        · cases h

theorem matchPieces_isSome {m r : Text} (hm : PiecesMatch ps m) (hr : (next r).isSome) :
    (matchPieces next ps (m ++ r)).isSome := by
  induction hm with
  | nil => simpa [matchPieces] using hr
  | char _ ih => simpa [matchPieces] using ih
  | anyChar hc _ ih => simpa [matchPieces, hc] using ih
  | anyRun hu _ ih =>
    rw [matchPieces, List.append_assoc]
    exact afterRun_isSome hu ih
  | oneOf hc _ ih => simpa [matchPieces, hc] using ih

/-- **A component glob consumes a fixed number of slashes**: those it is written with. -/
theorem PiecesMatch.count_slash {m : Text} (h : PiecesMatch ps m) :
    m.count '/' = ps.count (.char '/') := by
  induction h with
  | nil => rfl
  | @char c ps m _ ih =>
    rw [List.count_cons, List.count_cons, ih]
    by_cases hc : c = '/'
    · simp [hc]
    · simp [hc]
  | anyChar hc _ ih => simp [ih, hc]
  | anyRun hu _ ih => simp [List.count_append, List.count_eq_zero.mpr hu, ih]
  | @oneOf k c ps m hc _ ih =>
    have hne : c ≠ '/' := by
      simp only [CharClass.admits, Bool.and_eq_true, decide_eq_true_eq] at hc
      exact hc.1
    simp [ih, hne]

/-- What a component glob leaves of a text, if it ends where a component ends, does not depend on
how the glob is matched. -/
theorem eq_of_piecesMatch {m m' r r' : Text} (hm : PiecesMatch ps m) (hm' : PiecesMatch ps m')
    (hr : Ends r) (hr' : Ends r') (h : m ++ r = m' ++ r') : r = r' := by
  have hcount : m.count '/' = m'.count '/' := hm.count_slash.trans hm'.count_slash.symm
  -- if one match were longer, it would go on through the slash that ends the other
  have key : ∀ {m m' r r' y : Text}, m.count '/' = m'.count '/' → Ends r → m' = m ++ y →
      r = y ++ r' → y = [] := by
    intro m m' r r' y hc hr hm hy
    rcases hr with rfl | ⟨b, rfl⟩
    · exact (List.append_eq_nil_iff.mp hy.symm).1
    · cases y with
      | nil => rfl
      | cons a y =>
        obtain ⟨rfl, -⟩ := List.cons.inj hy
        rw [hm, List.count_append, List.count_cons_self] at hc
        omega
  rcases List.append_eq_append_iff.mp h with ⟨y, hy, hyr⟩ | ⟨y, hy, hyr⟩
  · rw [hyr, key hcount hr hy hyr, List.nil_append]
  · rw [hyr, key hcount.symm hr' hy hyr, List.nil_append]

/-- A component glob that begins further down also ends further down. -/
theorem exists_append_of_piecesMatch {t u m m' r r' : Text} (hu : After t u)
    (hm : PiecesMatch ps m) (hm' : PiecesMatch ps m') (ht : t = m ++ r) (hu' : u = m' ++ r') :
    ∃ x, x ≠ [] ∧ r = x ++ r' := by
  have hcount : m.count '/' = m'.count '/' := hm.count_slash.trans hm'.count_slash.symm
  obtain ⟨v, rfl⟩ := hu
  rw [hu', ← List.cons_append, ← List.append_assoc] at ht
  rcases List.append_eq_append_iff.mp ht with ⟨y, hy, -⟩ | ⟨y, hy, hyr⟩
  · rw [hy, List.count_append, List.count_append, List.count_cons_self] at hcount
    omega
  · refine ⟨y, fun hnil => ?_, hyr⟩
    rw [hnil, List.append_nil] at hy
    rw [← hy, List.count_append, List.count_cons_self] at hcount
    omega

end Pieces

/-! ## Globs -/

section Steps
variable {α : Type} {next : Text → Option α}

theorem behindSlash_eq_some {r : Text} {a : α} (h : behindSlash next r = some a) :
    ∃ below, r = '/' :: below ∧ next below = some a := by
  unfold behindSlash at h
  split at h
  · exact ⟨_, rfl, h⟩
  · cases h

theorem afterSlash_eq_none {t : Text} (h : afterSlash next t = none) {u : Text} (hu : After t u) :
    next u = none := by
  induction t with
  | nil => obtain ⟨v, hv⟩ := hu; simp at hv
  | cons c t ih =>
    rw [afterSlash] at h
    split at h
    · cases h
    · rename_i hnone
      rcases after_cons_iff.mp hu with ⟨rfl, rfl⟩ | hu
      · simpa using h
      · exact ih hnone hu

/-- What is found behind a slash is found behind the last one for which there is anything. -/
theorem afterSlash_eq_some {t : Text} {a : α} (h : afterSlash next t = some a) :
    ∃ u, After t u ∧ next u = some a ∧
      ∀ w, After t w → (next w).isSome → u.length ≤ w.length := by
  induction t with
  | nil => simp [afterSlash] at h
  | cons c t ih =>
    rw [afterSlash] at h
    split at h
    · rename_i found hfound
      obtain ⟨u, hu, ha, hmin⟩ := ih (hfound.trans h)
      refine ⟨u, after_cons_iff.mpr (Or.inr hu), ha, fun w hw hsome => ?_⟩
      rcases after_cons_iff.mp hw with ⟨rfl, rfl⟩ | hw
      · exact Nat.le_of_lt hu.length_lt
      · exact hmin w hw hsome
    · rename_i hnone
      split at h
      · rename_i hc
        refine ⟨t, after_cons_iff.mpr (Or.inl ⟨hc, rfl⟩), h, fun w hw hsome => ?_⟩
        rcases after_cons_iff.mp hw with ⟨-, rfl⟩ | hw
        · exact Nat.le_refl _
        · rw [afterSlash_eq_none hnone hw] at hsome
          cases hsome
      · cases h

/-! ### What a glob can leave of a text -/

theorem leaves_component_iff {ps : List Piece} {t r : Text} :
    Leaves [.component ps] t r ↔ ∃ m, t = m ++ r ∧ PiecesMatch ps m := by
  constructor
  · rintro ⟨m, rfl, h⟩
    cases h with
    | component h => exact ⟨m, rfl, h⟩
  · rintro ⟨m, rfl, h⟩
    exact ⟨m, rfl, .component h⟩

theorem leaves_component_cons_iff {ps : List Piece} {step : Step} {steps : List Step}
    {t r : Text} :
    Leaves (.component ps :: step :: steps) t r ↔
      ∃ m below, t = m ++ '/' :: below ∧ PiecesMatch ps m ∧ Leaves (step :: steps) below r := by
  constructor
  · rintro ⟨m, rfl, h⟩
    cases h with
    | @slash _ _ _ m₁ m₂ h₁ h₂ => exact ⟨m₁, m₂ ++ r, by simp, h₁, m₂, rfl, h₂⟩
  · rintro ⟨m, below, rfl, h, m₂, rfl, h₂⟩
    exact ⟨m ++ '/' :: m₂, by simp, .slash h h₂⟩

theorem leaves_anyDepth_cons_iff {step : Step} {steps : List Step} {t r : Text} :
    Leaves (.anyDepth :: step :: steps) t r ↔
      ∃ u, (u = t ∨ After t u) ∧ Leaves (step :: steps) u r := by
  constructor
  · rintro ⟨m, rfl, h⟩
    cases h with
    | none h => exact ⟨m ++ r, Or.inl rfl, m, rfl, h⟩
    | @some _ _ v m₂ h => exact ⟨m₂ ++ r, Or.inr ⟨v, by simp⟩, m₂, rfl, h⟩
  · rintro ⟨u, rfl | ⟨v, rfl⟩, m, rfl, h⟩
    · exact ⟨m, rfl, .none h⟩
    · exact ⟨v ++ '/' :: m, by simp, .some h⟩

theorem matchSteps_sound {steps : List Step} {t : Text} {a : α}
    (h : matchSteps next steps t = some a) : ∃ r, Leaves steps t r ∧ next r = some a := by
  induction steps generalizing t with
  | nil => exact ⟨t, ⟨[], rfl, .nil⟩, by simpa [matchSteps] using h⟩
  | cons step steps ih =>
    cases steps with
    | nil =>
      cases step with
      | component ps =>
        rw [matchSteps] at h
        obtain ⟨m, r, rfl, hm, hr⟩ := matchPieces_sound h
        exact ⟨r, ⟨m, rfl, .component hm⟩, hr⟩
      | anyDepth =>
        rw [matchSteps] at h
        split at h
        · cases h
        · rename_i ht
          exact ⟨[], ⟨t, by simp, .rest (fun e => ht (List.isEmpty_iff.mpr e))⟩, h⟩
    | cons step' steps =>
      cases step with
      | component ps =>
        rw [matchSteps] at h
        obtain ⟨m, r, rfl, hm, hr⟩ := matchPieces_sound h
        obtain ⟨below, rfl, hbelow⟩ := behindSlash_eq_some hr
        obtain ⟨r, hr, ha⟩ := ih hbelow
        exact ⟨r, leaves_component_cons_iff.mpr ⟨m, below, rfl, hm, hr⟩, ha⟩
      | anyDepth =>
        rw [matchSteps] at h
        split at h
        · rename_i found hfound
          obtain ⟨u, hu, hnext, -⟩ := afterSlash_eq_some (hfound.trans h)
          obtain ⟨r, hr, ha⟩ := ih hnext
          exact ⟨r, leaves_anyDepth_cons_iff.mpr ⟨u, Or.inr hu, hr⟩, ha⟩
        · obtain ⟨r, hr, ha⟩ := ih h
          exact ⟨r, leaves_anyDepth_cons_iff.mpr ⟨t, Or.inl rfl, hr⟩, ha⟩

/-! ### The order in which divisions are tried -/

variable (hnil : (next []).isSome)
include hnil

/-- **What a glob can leave further up, it can leave, or less, wherever it can begin further
down.** -/
theorem Leaves.of_after {step : Step} {steps : List Step} {t u r r₀ : Text} (hu : After t u)
    (h : Leaves (step :: steps) t r) (hr : (next r).isSome)
    (h₀ : Leaves (step :: steps) u r₀) (hr₀ : (next r₀).isSome) :
    ∃ r₁, Leaves (step :: steps) u r₁ ∧ (next r₁).isSome ∧ r₁.length ≤ r.length := by
  induction steps generalizing step t u with
  | nil =>
    cases step with
    | component ps =>
      obtain ⟨m, ht, hm⟩ := leaves_component_iff.mp h
      obtain ⟨m₀, hu₀, hm₀⟩ := leaves_component_iff.mp h₀
      obtain ⟨x, -, hx⟩ := exists_append_of_piecesMatch hu hm hm₀ ht hu₀
      exact ⟨r₀, h₀, hr₀, by rw [hx, List.length_append]; omega⟩
    | anyDepth =>
      obtain ⟨m₀, rfl, hm₀⟩ := h₀
      cases hm₀ with
      | rest hne =>
        exact ⟨[], ⟨m₀ ++ r₀, by simp, .rest (by simp [hne])⟩, hnil, Nat.zero_le _⟩
  | cons step' steps ih =>
    cases step with
    | component ps =>
      obtain ⟨m, below, ht, hm, hbelow⟩ := leaves_component_cons_iff.mp h
      obtain ⟨m₀, below₀, hu₀, hm₀, hbelow₀⟩ := leaves_component_cons_iff.mp h₀
      obtain ⟨x, hx, hxb⟩ := exists_append_of_piecesMatch hu hm hm₀ ht hu₀
      have hafter : After below below₀ := by
        cases x with
        | nil => exact absurd rfl hx
        | cons a x => exact ⟨x, (List.cons.inj hxb).2⟩
      obtain ⟨r₁, hl, hs, hle⟩ := ih hafter hbelow hbelow₀
      exact ⟨r₁, leaves_component_cons_iff.mpr ⟨m₀, below₀, hu₀, hm₀, hl⟩, hs, hle⟩
    | anyDepth =>
      obtain ⟨w, hw, hlw⟩ := leaves_anyDepth_cons_iff.mp h
      obtain ⟨w₀, hw₀, hlw₀⟩ := leaves_anyDepth_cons_iff.mp h₀
      have htw₀ : After t w₀ := by
        rcases hw₀ with rfl | hw₀
        · exact hu
        · exact hu.trans hw₀
      -- where the steps behind the stretch begin in `t`, compared with `u`
      by_cases hlt : w.length ≤ u.length
      · have hwu : w = u ∨ After u w := by
          rcases hw with rfl | hw
          · exact absurd hu.length_lt (by omega)
          · exact hu.of_length_le hw hlt
        exact ⟨r, leaves_anyDepth_cons_iff.mpr ⟨w, hwu, hlw⟩, hr, Nat.le_refl _⟩
      · have hafter : After w w₀ := by
          rcases hw with rfl | hw
          · exact htw₀
          · have hlt₀ : w₀.length < w.length := by
              rcases hw₀ with rfl | hw₀
              · omega
              · have := hw₀.length_lt
                omega
            rcases hw.of_length_le htw₀ (Nat.le_of_lt hlt₀) with rfl | hafter
            · omega
            · exact hafter
        obtain ⟨r₁, hl, hs, hle⟩ := ih hafter hlw hlw₀
        exact ⟨r₁, leaves_anyDepth_cons_iff.mpr ⟨w₀, hw₀, hl⟩, hs, hle⟩

/-- Where steps can leave something that completes a match, the matcher completes one, and none
leaves less. -/
def FindsLeast (next : Text → Option α) (steps : List Step) : Prop :=
  ∀ {t r : Text}, Leaves steps t r → (next r).isSome →
    ∃ r₁, Leaves steps t r₁ ∧ (next r₁).isSome ∧ r₁.length ≤ r.length ∧
      matchSteps next steps t = next r₁

omit hnil in
theorem findsLeast_component (hends : ∀ r, (next r).isSome → Ends r) (ps : List Piece) :
    FindsLeast next [.component ps] := by
  intro t r h hr
  obtain ⟨m, rfl, hm⟩ := leaves_component_iff.mp h
  obtain ⟨a, ha⟩ := Option.isSome_iff_exists.mp (matchPieces_isSome hm hr)
  obtain ⟨m', r', ht, hm', hr'⟩ := matchPieces_sound ha
  have hsome : (next r').isSome := by rw [hr']; rfl
  have hrr : r = r' := eq_of_piecesMatch hm hm' (hends r hr) (hends r' hsome) ht
  refine ⟨r, h, hr, Nat.le_refl _, ?_⟩
  rw [matchSteps, ha, hrr, hr']

theorem findsLeast_anyDepth : FindsLeast next [.anyDepth] := by
  rintro t r ⟨m, rfl, hm⟩ -
  cases hm with
  | rest hne =>
    have hne' : m ++ r ≠ [] := by simp [hne]
    refine ⟨[], ⟨m ++ r, by simp, .rest hne'⟩, hnil, Nat.zero_le _, ?_⟩
    rw [matchSteps, if_neg (fun e => hne' (List.isEmpty_iff.mp e))]

section
variable {step : Step} {steps : List Step} (ih : FindsLeast next (step :: steps))
include ih

omit hnil in
theorem FindsLeast.component_cons (ps : List Piece) :
    FindsLeast next (.component ps :: step :: steps) := by
  intro t r h hr
  obtain ⟨m, below, rfl, hm, hbelow⟩ := leaves_component_cons_iff.mp h
  obtain ⟨r₁, hl, hs, hle, heq⟩ := ih hbelow hr
  have hfirst : (behindSlash (matchSteps next (step :: steps)) ('/' :: below)).isSome := by
    rw [behindSlash, heq]; exact hs
  obtain ⟨a, ha⟩ := Option.isSome_iff_exists.mp (matchPieces_isSome hm hfirst)
  obtain ⟨m', r', ht, hm', hr'⟩ := matchPieces_sound ha
  obtain ⟨below', rfl, hbelow'⟩ := behindSlash_eq_some hr'
  have hbb := eq_of_piecesMatch hm hm' (Or.inr ⟨_, rfl⟩) (Or.inr ⟨_, rfl⟩) ht
  obtain ⟨-, rfl⟩ := List.cons.inj hbb
  refine ⟨r₁, leaves_component_cons_iff.mpr ⟨m, below, rfl, hm, hl⟩, hs, hle, ?_⟩
  rw [matchSteps, ha, ← hbelow', heq]

theorem FindsLeast.anyDepth_cons : FindsLeast next (.anyDepth :: step :: steps) := by
  intro t r h hr
  obtain ⟨w, hw, hlw⟩ := leaves_anyDepth_cons_iff.mp h
  obtain ⟨r₁, hl, hs, hle, heq⟩ := ih hlw hr
  have hwsome : (matchSteps next (step :: steps) w).isSome := by rw [heq]; exact hs
  cases hfound : afterSlash (matchSteps next (step :: steps)) t with
  | none =>
    -- no slash will do, so the stretch takes nothing
    obtain rfl : w = t := by
      rcases hw with hw | hw
      · exact hw
      · rw [afterSlash_eq_none hfound hw] at hwsome
        cases hwsome
    refine ⟨r₁, leaves_anyDepth_cons_iff.mpr ⟨w, Or.inl rfl, hl⟩, hs, hle, ?_⟩
    rw [matchSteps, hfound, heq]
  | some a =>
    obtain ⟨u, hu, hua, hmin⟩ := afterSlash_eq_some hfound
    obtain ⟨r₀, hl₀, hr₀⟩ := matchSteps_sound hua
    have hs₀ : (next r₀).isSome := by rw [hr₀]; rfl
    -- the last slash that will do is not before the one given
    have hwu : u = w ∨ After w u := by
      rcases hw with rfl | hw
      · exact Or.inr hu
      · exact hw.of_length_le hu (hmin w hw hwsome)
    have hbest : ∃ r₁, Leaves (step :: steps) u r₁ ∧ (next r₁).isSome ∧
        r₁.length ≤ r.length := by
      rcases hwu with rfl | hwu
      · exact ⟨r, hlw, hr, Nat.le_refl _⟩
      · exact Leaves.of_after hnil hwu hlw hr hl₀ hs₀
    obtain ⟨r₁, hl₁, hs₁, hle₁⟩ := hbest
    obtain ⟨r₂, hl₂, hs₂, hle₂, heq₂⟩ := ih hl₁ hs₁
    refine ⟨r₂, leaves_anyDepth_cons_iff.mpr ⟨u, Or.inr hu, hl₂⟩, hs₂,
      Nat.le_trans hle₂ hle₁, ?_⟩
    rw [matchSteps, hfound, ← heq₂, hua]

end

/-- **The first division found leaves the least text behind.** -/
theorem findsLeast (hends : ∀ r, (next r).isSome → Ends r) (steps : List Step) :
    FindsLeast next steps := by
  induction steps with
  | nil =>
    rintro t r ⟨m, rfl, hm⟩ hr
    cases hm
    exact ⟨r, ⟨[], rfl, .nil⟩, hr, Nat.le_refl _, rfl⟩
  | cons step steps ih =>
    cases steps with
    | nil =>
      cases step with
      | component ps => exact findsLeast_component hends ps
      | anyDepth => exact findsLeast_anyDepth hnil
    | cons step' steps =>
      cases step with
      | component ps => exact ih.component_cons ps
      | anyDepth => exact ih.anyDepth_cons hnil

end Steps

/-! ## How patterns meet paths -/

namespace PathPattern
variable (p : PathPattern)

/-- The steps of the whole pattern: one that is not anchored may begin at any depth. -/
def allSteps : List Step := if p.anchored then p.steps else .anyDepth :: p.steps

/-- The paths that the pattern matches, relative to its root and whatever is there. -/
def Matches (path : Text) : Prop := StepsMatch p.allSteps path

end PathPattern

theorem Meeting.ends_of_isSome {allow : Bool} {r : Text} (h : (Meeting.ofRest allow r).isSome) :
    Ends r := by
  unfold Meeting.ofRest at h
  split at h
  · exact Or.inl rfl
  · exact Or.inr ⟨_, rfl⟩
  · cases h

theorem Meeting.ofRest_eq_itself_iff {allow : Bool} {r : Text} :
    Meeting.ofRest allow r = some .itself ↔ r = [] := by
  unfold Meeting.ofRest
  split
  · simp
  · split <;> simp
  · simp_all

theorem Meeting.ofRest_eq_inside_iff {allow : Bool} {r : Text} :
    Meeting.ofRest allow r = some .inside ↔ allow = true ∧ ∃ below, r = '/' :: below := by
  unfold Meeting.ofRest
  split
  · simp
  · split <;> simp_all
  · rename_i h
    simp only [reduceCtorEq, false_iff]
    rintro ⟨-, below, rfl⟩
    exact h below rfl

namespace PathPattern
variable {p : PathPattern} {allow : Bool} {path : Text}

/-- A pattern meets a path as the least that it can leave of the path tells. -/
theorem exists_meets_eq {r : Text} (h : Leaves p.allSteps path r)
    (hr : (Meeting.ofRest allow r).isSome) :
    ∃ r₁, Leaves p.allSteps path r₁ ∧ (Meeting.ofRest allow r₁).isSome ∧ r₁.length ≤ r.length ∧
      p.meets allow path = Meeting.ofRest allow r₁ :=
  findsLeast rfl (fun _ => Meeting.ends_of_isSome) _ h hr

/-- **A pattern meets a path itself exactly if it matches it**, and this is found even where the
pattern matches a directory above the path as well. -/
theorem meets_eq_itself_iff : p.meets allow path = some .itself ↔ p.Matches path := by
  constructor
  · intro h
    obtain ⟨r, ⟨m, rfl, hm⟩, hr⟩ := matchSteps_sound h
    rw [Meeting.ofRest_eq_itself_iff.mp hr, List.append_nil]
    exact hm
  · intro h
    have hleaves : Leaves p.allSteps path [] := ⟨path, (List.append_nil path).symm, h⟩
    obtain ⟨r, -, -, hle, heq⟩ := exists_meets_eq hleaves rfl
    rw [heq]
    exact Meeting.ofRest_eq_itself_iff.mpr (List.length_eq_zero_iff.mp (by simpa using hle))

/-- A pattern meets a path from above exactly if it reaches inside, matches a directory above the
path, and does not match the path itself. -/
theorem meets_eq_inside_iff :
    p.meets allow path = some .inside ↔
      allow = true ∧ ¬ p.Matches path ∧ ∃ m below, path = m ++ '/' :: below ∧ p.Matches m := by
  constructor
  · intro h
    have hnot : ¬ p.Matches path := fun hm => by
      rw [meets_eq_itself_iff.mpr hm] at h
      cases h
    obtain ⟨r, ⟨m, hpath, hm⟩, hr⟩ := matchSteps_sound h
    obtain ⟨hallow, below, rfl⟩ := Meeting.ofRest_eq_inside_iff.mp hr
    exact ⟨hallow, hnot, m, below, hpath, hm⟩
  · rintro ⟨rfl, hnot, m, below, rfl, hm⟩
    have hleaves : Leaves p.allSteps (m ++ '/' :: below) ('/' :: below) := ⟨m, rfl, hm⟩
    have hinside : (Meeting.ofRest true ('/' :: below)).isSome := rfl
    obtain ⟨r, ⟨m', hr, hm'⟩, hsome, -, heq⟩ := exists_meets_eq hleaves hinside
    rw [heq]
    rcases Meeting.ends_of_isSome hsome with rfl | ⟨below', rfl⟩
    · rw [List.append_nil] at hr
      exact absurd (hr ▸ hm') hnot
    · rfl

/-- The pattern of an ignore list accepts what it matches, directories only if it asks for
those. -/
theorem accepts_false_iff {isDir : Bool} :
    p.accepts false path isDir = true ↔
      p.Matches path ∧ (p.directoryOnly = true → isDir = true) := by
  have hiff : p.meets false path = some .itself ↔ p.Matches path := meets_eq_itself_iff
  rw [← hiff, accepts]
  cases h : p.meets false path with
  | none => simp
  | some meeting =>
    cases meeting with
    | itself => cases p.directoryOnly <;> simp
    | inside => exact absurd (meets_eq_inside_iff.mp h).1 (by simp)

/-- The pattern of an include list accepts what it matches likewise, and of the rest what lies
below something that it matches. -/
theorem accepts_true_iff {isDir : Bool} :
    p.accepts true path isDir = true ↔
      (p.Matches path ∧ (p.directoryOnly = true → isDir = true)) ∨
        (¬ p.Matches path ∧ ∃ m below, path = m ++ '/' :: below ∧ p.Matches m) := by
  rw [accepts]
  cases h : p.meets true path with
  | none =>
    have hnot : ¬ p.Matches path := fun hm => by
      rw [meets_eq_itself_iff.mpr hm] at h
      cases h
    have habove : ¬ ∃ m below, path = m ++ '/' :: below ∧ p.Matches m := fun hm => by
      rw [meets_eq_inside_iff.mpr ⟨rfl, hnot, hm⟩] at h
      cases h
    apply iff_of_false (by simp)
    rintro (⟨hm, -⟩ | ⟨-, hm⟩)
    · exact hnot hm
    · exact habove hm
  | some meeting =>
    cases meeting with
    | itself =>
      have hm := meets_eq_itself_iff.mp h
      cases p.directoryOnly <;> simp [hm]
    | inside =>
      obtain ⟨-, hnot, habove⟩ := meets_eq_inside_iff.mp h
      exact iff_of_true (by simp) (Or.inr ⟨hnot, habove⟩)

end PathPattern
end PathFilter.Pattern
