/-! # Computations that may fail

When a computation that is put together from others succeeds, all of its parts do; when it fails,
one of them does.
-/

namespace PathFilter

variable {ε ε' α β : Type}

theorem bind_eq_ok_iff {x : Except ε α} {f : α → Except ε β} {b : β} :
    x >>= f = .ok b ↔ ∃ a, x = .ok a ∧ f a = .ok b := by
  constructor
  · intro h
    cases x with
    | error e => cases h
    | ok a => exact ⟨a, rfl, h⟩
  · rintro ⟨a, rfl, h⟩
    exact h

theorem bind_eq_error_iff {x : Except ε α} {f : α → Except ε β} {e : ε} :
    x >>= f = .error e ↔ x = .error e ∨ ∃ a, x = .ok a ∧ f a = .error e := by
  constructor
  · intro h
    cases x with
    | error e' =>
      cases h
      exact Or.inl rfl
    | ok a => exact Or.inr ⟨a, rfl, h⟩
  · rintro (rfl | ⟨a, rfl, h⟩)
    · rfl
    · exact h

theorem map_eq_ok_iff {x : Except ε α} {f : α → β} {b : β} :
    x.map f = .ok b ↔ ∃ a, x = .ok a ∧ f a = b := by
  constructor
  · intro h
    cases x with
    | error e => cases h
    | ok a => exact ⟨a, rfl, Except.ok.inj h⟩
  · rintro ⟨a, rfl, rfl⟩
    rfl

theorem map_eq_error_iff {x : Except ε α} {f : α → β} {e : ε} :
    x.map f = .error e ↔ x = .error e := by
  cases x with
  | error e' => exact ⟨fun h => congrArg Except.error (Except.error.inj h), fun h => h ▸ rfl⟩
  | ok a => exact iff_of_false nofun nofun

theorem exists_map_eq_ok_iff {x : Except ε α} {f : α → β} :
    (∃ b, x.map f = .ok b) ↔ ∃ a, x = .ok a := by
  cases x with
  | error e => exact iff_of_false nofun nofun
  | ok a => exact iff_of_true ⟨f a, rfl⟩ ⟨a, rfl⟩

theorem exists_map_eq_error_iff {x : Except ε α} {f : α → β} :
    (∃ e, x.map f = .error e) ↔ ∃ e, x = .error e := by
  cases x with
  | error e => exact iff_of_true ⟨e, rfl⟩ ⟨e, rfl⟩
  | ok a => exact iff_of_false nofun nofun

theorem mapError_eq_ok_iff {x : Except ε α} {f : ε → ε'} {a : α} :
    x.mapError f = .ok a ↔ x = .ok a := by
  cases x with
  | error e => exact iff_of_false nofun nofun
  | ok a' => exact ⟨fun h => congrArg Except.ok (Except.ok.inj h), fun h => h ▸ rfl⟩

theorem mapError_eq_error_iff {x : Except ε α} {f : ε → ε'} {e' : ε'} :
    x.mapError f = .error e' ↔ ∃ e, x = .error e ∧ f e = e' := by
  cases x with
  | error e =>
    constructor
    · intro h
      exact ⟨e, rfl, Except.error.inj h⟩
    · rintro ⟨_, ⟨⟩, rfl⟩
      rfl
  | ok a => exact iff_of_false nofun nofun

theorem eq_ok_of_toOption {x : Except ε α} {a : α} (h : x.toOption = some a) : x = .ok a := by
  cases x with
  | error e => cases h
  | ok a' => exact congrArg Except.ok (Option.some.inj h)

/-- A computation with a result that passes a test has one. -/
theorem exists_eq_ok_of_any {x : Except ε α} {p : α → Bool} (h : x.toOption.any p = true) :
    ∃ a, x = .ok a ∧ p a = true := by
  cases x with
  | error e => cases h
  | ok a => exact ⟨a, rfl, h⟩

theorem mapM_cons_eq_ok_iff {f : α → Except ε β} {a : α} {as : List α} {bs : List β} :
    (a :: as).mapM f = .ok bs ↔ ∃ b bs', f a = .ok b ∧ as.mapM f = .ok bs' ∧ bs = b :: bs' := by
  rw [List.mapM_cons, bind_eq_ok_iff]
  constructor
  · rintro ⟨b, hb, h⟩
    obtain ⟨bs', hbs, h⟩ := bind_eq_ok_iff.mp h
    exact ⟨b, bs', hb, hbs, (Except.ok.inj h).symm⟩
  · rintro ⟨b, bs', hb, hbs, rfl⟩
    exact ⟨b, hb, bind_eq_ok_iff.mpr ⟨bs', hbs, rfl⟩⟩

theorem mapM_nil_eq_ok_iff {f : α → Except ε β} {bs : List β} :
    ([] : List α).mapM f = .ok bs ↔ bs = [] :=
  ⟨fun h => (Except.ok.inj h).symm, fun h => h ▸ rfl⟩

theorem mapM_append_eq_ok_iff {f : α → Except ε β} {as as' : List α} {cs : List β} :
    (as ++ as').mapM f = .ok cs ↔
      ∃ bs bs', as.mapM f = .ok bs ∧ as'.mapM f = .ok bs' ∧ cs = bs ++ bs' := by
  rw [List.mapM_append, bind_eq_ok_iff]
  constructor
  · rintro ⟨bs, hbs, h⟩
    obtain ⟨bs', hbs', h⟩ := bind_eq_ok_iff.mp h
    exact ⟨bs, bs', hbs, hbs', (Except.ok.inj h).symm⟩
  · rintro ⟨bs, bs', hbs, hbs', rfl⟩
    exact ⟨bs, hbs, bind_eq_ok_iff.mpr ⟨bs', hbs', rfl⟩⟩

/-- Each result comes from one of the arguments. -/
theorem exists_of_mem_mapM {f : α → Except ε β} {as : List α} {bs : List β}
    (h : as.mapM f = .ok bs) {b : β} (hb : b ∈ bs) : ∃ a ∈ as, f a = .ok b := by
  induction as generalizing bs with
  | nil =>
    obtain rfl := mapM_nil_eq_ok_iff.mp h
    cases hb
  | cons a as ih =>
    obtain ⟨b', bs, hb', hbs, rfl⟩ := mapM_cons_eq_ok_iff.mp h
    rcases List.mem_cons.mp hb with rfl | hb
    · exact ⟨a, List.mem_cons_self, hb'⟩
    · obtain ⟨a', ha', hfa⟩ := ih hbs hb
      exact ⟨a', List.mem_cons_of_mem a ha', hfa⟩

/-- Each argument has a result, which is among the results. -/
theorem exists_mem_of_mapM {f : α → Except ε β} {as : List α} {bs : List β}
    (h : as.mapM f = .ok bs) {a : α} (ha : a ∈ as) : ∃ b ∈ bs, f a = .ok b := by
  obtain ⟨as₁, as₂, rfl⟩ := List.append_of_mem ha
  obtain ⟨bs₁, bs₂, -, hbs₂, rfl⟩ := mapM_append_eq_ok_iff.mp h
  obtain ⟨b, bs₃, hb, -, rfl⟩ := mapM_cons_eq_ok_iff.mp hbs₂
  exact ⟨b, List.mem_append_right bs₁ List.mem_cons_self, hb⟩

theorem mem_of_mapM {f : α → Except ε β} {as : List α} {bs : List β} (h : as.mapM f = .ok bs)
    {a : α} (ha : a ∈ as) {b : β} (hb : f a = .ok b) : b ∈ bs := by
  obtain ⟨b', hmem, hb'⟩ := exists_mem_of_mapM h ha
  cases hb.symm.trans hb'
  exact hmem

theorem mapM_map_eq_ok {γ : Type} {f : β → Except ε γ} {g : α → β} {h : α → γ} {as : List α}
    (hf : ∀ a ∈ as, f (g a) = .ok (h a)) : (as.map g).mapM f = .ok (as.map h) := by
  induction as with
  | nil => rfl
  | cons a as ih =>
    exact mapM_cons_eq_ok_iff.mpr ⟨h a, as.map h, hf a List.mem_cons_self,
      ih fun b hb => hf b (List.mem_cons_of_mem a hb), rfl⟩

/-- Where there are no results, one of the arguments has none. -/
theorem exists_mapM_eq_error_iff {f : α → Except ε β} {as : List α} :
    (∃ e, as.mapM f = .error e) ↔ ∃ a ∈ as, ∃ e, f a = .error e := by
  induction as with
  | nil => exact iff_of_false nofun nofun
  | cons a as ih =>
    rw [List.mapM_cons]
    constructor
    · rintro ⟨e, h⟩
      rcases bind_eq_error_iff.mp h with h | ⟨b, -, h⟩
      · exact ⟨a, List.mem_cons_self, e, h⟩
      · rcases bind_eq_error_iff.mp h with h | ⟨bs, -, h⟩
        · obtain ⟨a', ha', he⟩ := ih.mp ⟨e, h⟩
          exact ⟨a', List.mem_cons_of_mem a ha', he⟩
        · cases h
    · rintro ⟨a', ha', e, he⟩
      cases hb : f a with
      | error e' => exact ⟨e', rfl⟩
      | ok b =>
        rcases List.mem_cons.mp ha' with rfl | ha'
        · cases hb.symm.trans he
        · obtain ⟨e', h⟩ := ih.mpr ⟨a', ha', e, he⟩
          exact ⟨e', bind_eq_error_iff.mpr (.inr ⟨b, rfl, bind_eq_error_iff.mpr (.inl h)⟩)⟩

/-- Some of the arguments give some of the results. -/
theorem exists_mapM_of_subset {f : α → Except ε β} {as as' : List α} {bs : List β}
    (h : as.mapM f = .ok bs) (hle : as' ⊆ as) : ∃ bs', as'.mapM f = .ok bs' ∧ bs' ⊆ bs := by
  induction as' with
  | nil => exact ⟨[], rfl, List.nil_subset bs⟩
  | cons a as' ih =>
    obtain ⟨ha, hle⟩ := List.cons_subset.mp hle
    obtain ⟨b, hmem, hb⟩ := exists_mem_of_mapM h ha
    obtain ⟨bs', hbs', hsub⟩ := ih hle
    exact ⟨b :: bs', mapM_cons_eq_ok_iff.mpr ⟨b, bs', hb, hbs', rfl⟩,
      List.cons_subset.mpr ⟨hmem, hsub⟩⟩

/-- Arguments in another order give the results in another order. -/
theorem exists_mapM_of_perm {f : α → Except ε β} {as as' : List α} {bs : List β}
    (h : as.mapM f = .ok bs) (hperm : as.Perm as') : ∃ bs', as'.mapM f = .ok bs' ∧ bs.Perm bs' := by
  induction hperm generalizing bs with
  | nil => exact ⟨bs, h, .refl bs⟩
  | cons a _ ih =>
    obtain ⟨b, bs, hb, hbs, rfl⟩ := mapM_cons_eq_ok_iff.mp h
    obtain ⟨bs', hbs', hperm⟩ := ih hbs
    exact ⟨b :: bs', mapM_cons_eq_ok_iff.mpr ⟨b, bs', hb, hbs', rfl⟩, hperm.cons b⟩
  | swap a a' as =>
    obtain ⟨b', _, hb', hrest, rfl⟩ := mapM_cons_eq_ok_iff.mp h
    obtain ⟨b, bs, hb, hbs, rfl⟩ := mapM_cons_eq_ok_iff.mp hrest
    exact ⟨b :: b' :: bs, mapM_cons_eq_ok_iff.mpr ⟨b, _, hb, mapM_cons_eq_ok_iff.mpr
      ⟨b', bs, hb', hbs, rfl⟩, rfl⟩, .swap b b' bs⟩
  | trans _ _ ih ih' =>
    obtain ⟨bs₁, hbs₁, hperm₁⟩ := ih h
    obtain ⟨bs₂, hbs₂, hperm₂⟩ := ih' hbs₁
    exact ⟨bs₂, hbs₂, hperm₁.trans hperm₂⟩

/-- Where a fold succeeds, each of its steps has. -/
theorem exists_of_foldlM {f : β → α → Except ε β} {as : List α} {b b' : β}
    (h : as.foldlM f b = .ok b') {a : α} (ha : a ∈ as) : ∃ c c', f c a = .ok c' := by
  induction as generalizing b with
  | nil => cases ha
  | cons a' as ih =>
    rw [List.foldlM_cons] at h
    obtain ⟨c, hc, h⟩ := bind_eq_ok_iff.mp h
    rcases List.mem_cons.mp ha with rfl | ha
    · exact ⟨b, c, hc⟩
    · exact ih h ha

/-- Where a fold fails, one of its steps does. -/
theorem exists_of_foldlM_eq_error {f : β → α → Except ε β} {as : List α} {b : β} {e : ε}
    (h : as.foldlM f b = .error e) : ∃ a ∈ as, ∃ c, f c a = .error e := by
  induction as generalizing b with
  | nil => cases h
  | cons a as ih =>
    rw [List.foldlM_cons] at h
    rcases bind_eq_error_iff.mp h with h | ⟨c, -, h⟩
    · exact ⟨a, List.mem_cons_self, b, h⟩
    · obtain ⟨a', ha', hfa⟩ := ih h
      exact ⟨a', List.mem_cons_of_mem a ha', hfa⟩

/-! ## Computations that do as well as others -/

/-- What the first computation gives, the second one gives as well. -/
def Follows (x y : Except ε α) : Prop := ∀ a, x = .ok a → y = .ok a

namespace Follows
variable {x y : Except ε α}

theorem refl (x : Except ε α) : Follows x x := fun _ h => h

/-- What fails gives nothing. -/
theorem of_error (e : ε) (y : Except ε α) : Follows (.error e) y := nofun

theorem bind (h : Follows x y) {f g : α → Except ε β} (hfg : ∀ a, Follows (f a) (g a)) :
    Follows (x >>= f) (y >>= g) := by
  intro b hb
  obtain ⟨a, ha, hb⟩ := bind_eq_ok_iff.mp hb
  exact bind_eq_ok_iff.mpr ⟨a, h a ha, hfg a b hb⟩

theorem map (h : Follows x y) (f : α → β) : Follows (x.map f) (y.map f) := by
  intro b hb
  obtain ⟨a, ha, rfl⟩ := map_eq_ok_iff.mp hb
  exact map_eq_ok_iff.mpr ⟨a, h a ha, rfl⟩

theorem mapError (h : Follows x y) (f : ε → ε') : Follows (x.mapError f) (y.mapError f) :=
  fun a ha => mapError_eq_ok_iff.mpr (h a (mapError_eq_ok_iff.mp ha))

theorem mapM {f g : α → Except ε β} (hfg : ∀ a, Follows (f a) (g a)) (as : List α) :
    Follows (as.mapM f) (as.mapM g) := by
  induction as with
  | nil => exact refl _
  | cons a as ih =>
    intro bs hbs
    obtain ⟨b, bs', hb, hbs', rfl⟩ := mapM_cons_eq_ok_iff.mp hbs
    exact mapM_cons_eq_ok_iff.mpr ⟨b, bs', hfg a b hb, ih bs' hbs', rfl⟩

theorem foldlM {f g : β → α → Except ε β} (hfg : ∀ b a, Follows (f b a) (g b a)) (b : β)
    (as : List α) : Follows (as.foldlM f b) (as.foldlM g b) := by
  induction as generalizing b with
  | nil => exact refl _
  | cons a as ih =>
    rw [List.foldlM_cons, List.foldlM_cons]
    exact bind (hfg b a) fun b => ih b

end Follows
end PathFilter
