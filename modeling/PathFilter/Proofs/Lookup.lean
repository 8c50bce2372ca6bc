import PathFilter.FileSystem.Lookup
import PathFilter.Proofs.Outcome

/-! # Where paths lead

A lookup takes names one after the other and may follow only so many links on its way, so what
it finds behind some names depends on the links that are left (`Leads`).

* Looking up names is looking up the first of them and then the others, with the links that are
  left (`leads_append_iff`).
* A lookup that follows a last link finds a location exactly if the names lead there
  (`locateFrom_true_eq_ok_iff`); one that does not finds what bears the last name
  (`locateFrom_false_concat_eq_ok_iff`).
* Whatever fails in a lookup, fails because nothing usable is there, so where injected errors say no
  more than that (`Mild`) no probe and no listing fails otherwise (`Mild.meansAbsent_of_stat`,
  `Mild.meansAbsent_of_list`).  This holds the more where no errors are injected (`Calm`).
-/

namespace PathFilter

/-- The errors that say of a path that nothing usable is there. -/
def Errno.absences : List Errno :=
  [.noEntry, .accessDenied, .notDirectory, .linkLoop, .nameTooLong]

theorem Errno.meansAbsent_of_mem {e : Errno} (h : e ∈ absences) : e.meansAbsent = true := by
  simp only [absences, List.mem_cons, List.not_mem_nil, or_false] at h
  rcases h with rfl | rfl | rfl | rfl | rfl <;> rfl

/-- The errors that strike at a node say no more than that nothing usable is there, or in opening it
that it is a directory. -/
structure Faults.Mild (f : Faults) : Prop where
  stat : ∀ e ∈ f.stat, e ∈ Errno.absences
  opening : ∀ e ∈ f.opening, e ∈ .isDirectory :: Errno.absences
  listing : ∀ e ∈ f.listing, e ∈ Errno.absences

instance (f : Faults) : Decidable f.Mild :=
  decidable_of_iff ((∀ e ∈ f.stat, e ∈ Errno.absences) ∧
      (∀ e ∈ f.opening, e ∈ .isDirectory :: Errno.absences) ∧ ∀ e ∈ f.listing, e ∈ Errno.absences)
    ⟨fun ⟨hstat, hopening, hlisting⟩ => ⟨hstat, hopening, hlisting⟩,
      fun hm => ⟨hm.stat, hm.opening, hm.listing⟩⟩

namespace FileSystem
variable {fs : FileSystem} {followLast : Bool} {k k' k₁ : Nat} {l l' l₁ : Location}
  {name : Text} {ns ms : List Text}

/-- A directory is at the location. -/
def HoldsDirectory (fs : FileSystem) (l : Location) : Prop :=
  ∃ n, fs.get? l = some n ∧ n.kind = .directory

/-- Where the names of a link's target are looked up from: the directory that holds the link,
unless the target is absolute. -/
def detourStart (l : Location) (target : Text) : Location :=
  if target.head? = some '/' then [] else l

/-- A name that is looked up among the names in a directory. -/
structure IsEntryName (name : Text) : Prop where
  ne_here : name ≠ Pathname.here
  ne_above : name ≠ Pathname.above
  short : nameSize name ≤ nameLimit

/-- From a location, with `k` links that may be followed, names lead to another one, with some
links left.  All links on the way are followed. -/
inductive Leads (fs : FileSystem) : Nat → Location → List Text → Nat → Location → Prop where
  | nil (k : Nat) (l : Location) : Leads fs k l [] k l
  | here {k k' : Nat} {l l' : Location} {ns : List Text} :
      fs.HoldsDirectory l → Leads fs k l ns k' l' → Leads fs k l (Pathname.here :: ns) k' l'
  | above {k k' : Nat} {l l' : Location} {ns : List Text} :
      fs.HoldsDirectory l → Leads fs k l.dropLast ns k' l' →
        Leads fs k l (Pathname.above :: ns) k' l'
  | entry {k k' : Nat} {l l' : Location} {name : Text} {ns : List Text} {n : Node} :
      fs.HoldsDirectory l → IsEntryName name → fs.get? (l ++ [name]) = some n →
        (∀ target, n.kind ≠ .link target) → Leads fs k (l ++ [name]) ns k' l' →
        Leads fs k l (name :: ns) k' l'
  | link {k k' : Nat} {l l' : Location} {name : Text} {ns : List Text} {n : Node}
      {target : Text} :
      fs.HoldsDirectory l → IsEntryName name → fs.get? (l ++ [name]) = some n →
        n.kind = .link target → target ≠ [] →
        Leads fs k (detourStart l target) (lookupNames target ++ ns) k' l' →
        Leads fs (k + 1) l (name :: ns) k' l'

/-! ## One name at a time -/

theorem locateFrom_nil : fs.locateFrom followLast k l [] = .ok l := by
  cases k <;> rfl

/-- What a lookup does with its first name. -/
theorem locateFrom_cons : fs.locateFrom followLast k l (name :: ns) =
    if (fs.get? l).all (·.kind ≠ .directory) then .error .notDirectory
    else if name = Pathname.here then fs.locateFrom followLast k l ns
    else if name = Pathname.above then fs.locateFrom followLast k l.dropLast ns
    else if nameLimit < nameSize name then .error .nameTooLong
    else match fs.get? (l ++ [name]) with
      | none => .error .noEntry
      | some { kind := .link target, .. } =>
        if ns.isEmpty && !followLast then .ok (l ++ [name])
        else match k with
          | 0 => .error .linkLoop
          | k + 1 =>
            if target.isEmpty then .error .noEntry
            else fs.locateFrom followLast k (detourStart l target) (lookupNames target ++ ns)
      | some _ => fs.locateFrom followLast k (l ++ [name]) ns := by
  cases k <;> rfl

theorem not_holdsDirectory_iff :
    (fs.get? l).all (·.kind ≠ .directory) = true ↔ ¬ fs.HoldsDirectory l := by
  unfold HoldsDirectory
  cases fs.get? l <;> simp

theorem isEntryName_iff : IsEntryName name ↔
    ¬ name = Pathname.here ∧ ¬ name = Pathname.above ∧ ¬ nameLimit < nameSize name :=
  ⟨fun h => ⟨h.ne_here, h.ne_above, Nat.not_lt.mpr h.short⟩,
    fun h => ⟨h.1, h.2.1, Nat.not_lt.mp h.2.2⟩⟩

/-- How the first name of a lookup is taken if the lookup succeeds. -/
theorem locateFrom_cons_eq_ok_iff : fs.locateFrom followLast k l (name :: ns) = .ok l' ↔
    fs.HoldsDirectory l ∧
      ((name = Pathname.here ∧ fs.locateFrom followLast k l ns = .ok l') ∨
       (name = Pathname.above ∧ fs.locateFrom followLast k l.dropLast ns = .ok l') ∨
       (IsEntryName name ∧ ∃ n, fs.get? (l ++ [name]) = some n ∧
         (((∀ target, n.kind ≠ .link target) ∧
            fs.locateFrom followLast k (l ++ [name]) ns = .ok l') ∨
          ∃ target, n.kind = .link target ∧
            if ns = [] ∧ followLast = false then l' = l ++ [name]
            else ∃ j, k = j + 1 ∧ target ≠ [] ∧
              fs.locateFrom followLast j (detourStart l target) (lookupNames target ++ ns)
                = .ok l'))) := by
  rw [locateFrom_cons]
  by_cases hdir : fs.HoldsDirectory l
  · rw [if_neg (fun h => not_holdsDirectory_iff.mp h hdir)]
    by_cases hhere : name = Pathname.here
    · subst hhere
      simp [hdir, isEntryName_iff, Pathname.here, Pathname.above]
    by_cases habove : name = Pathname.above
    · subst habove
      simp [hdir, isEntryName_iff, Pathname.here, Pathname.above]
    by_cases hshort : nameLimit < nameSize name
    · simp [hhere, habove, hshort, isEntryName_iff]
    have hname : IsEntryName name := isEntryName_iff.mpr ⟨hhere, habove, hshort⟩
    rw [if_neg hhere, if_neg habove, if_neg hshort]
    cases hn : fs.get? (l ++ [name]) with
    | none => simp [hhere, habove]
    | some n =>
      obtain ⟨⟨kind, faults⟩, inode⟩ := n
      cases kind with
      | file bytes => simp [hdir, hhere, habove, hname]
      | directory => simp [hdir, hhere, habove, hname]
      | link target =>
        cases k with
        | zero =>
          by_cases hlast : ns = [] ∧ followLast = false
          · simp [hdir, hhere, habove, hname, hlast, eq_comm]
          · simp [hdir, hhere, habove, hname, hlast]
        | succ k =>
          by_cases hlast : ns = [] ∧ followLast = false
          · simp [hdir, hhere, habove, hname, hlast, eq_comm]
          · by_cases ht : target = [] <;> simp [hdir, hhere, habove, hname, hlast, ht]
  · rw [if_pos (not_holdsDirectory_iff.mpr hdir)]
    simp [hdir]

/-- A lookup goes on with fewer names, or follows one of the links that it may follow. -/
theorem lookup_induction {P : Nat → List Text → Prop} (hnil : ∀ k, P k [])
    (hcons : ∀ k name ns, P k ns → (∀ j ms, k = j + 1 → P j ms) → P k (name :: ns))
    (k : Nat) (ns : List Text) : P k ns := by
  induction k generalizing ns with
  | zero =>
    induction ns with
    | nil => exact hnil 0
    | cons name ns ih => exact hcons 0 name ns ih (fun j ms h => absurd h.symm (Nat.succ_ne_zero j))
  | succ k ihk =>
    induction ns with
    | nil => exact hnil (k + 1)
    | cons name ns ih =>
      exact hcons (k + 1) name ns ih (fun j ms h => Nat.add_right_cancel h ▸ ihk ms)

/-- The ways in which the first name of a lookup can be taken, all that succeed. -/
theorem leads_cons_iff : Leads fs k l (name :: ns) k' l' ↔
    fs.HoldsDirectory l ∧
      ((name = Pathname.here ∧ Leads fs k l ns k' l') ∨
       (name = Pathname.above ∧ Leads fs k l.dropLast ns k' l') ∨
       (IsEntryName name ∧ ∃ n, fs.get? (l ++ [name]) = some n ∧
         (((∀ target, n.kind ≠ .link target) ∧ Leads fs k (l ++ [name]) ns k' l') ∨
          ∃ j target, k = j + 1 ∧ n.kind = .link target ∧ target ≠ [] ∧
            Leads fs j (detourStart l target) (lookupNames target ++ ns) k' l'))) := by
  constructor
  · intro h
    cases h with
    | here hdir h => exact ⟨hdir, .inl ⟨rfl, h⟩⟩
    | above hdir h => exact ⟨hdir, .inr (.inl ⟨rfl, h⟩)⟩
    | entry hdir hname hn hkind h => exact ⟨hdir, .inr (.inr ⟨hname, _, hn, .inl ⟨hkind, h⟩⟩)⟩
    | link hdir hname hn hkind hne h =>
      exact ⟨hdir, .inr (.inr ⟨hname, _, hn, .inr ⟨_, _, rfl, hkind, hne, h⟩⟩)⟩
  · rintro ⟨hdir, ⟨rfl, h⟩ | ⟨rfl, h⟩ |
      ⟨hname, n, hn, ⟨hkind, h⟩ | ⟨j, target, rfl, hkind, hne, h⟩⟩⟩
    · exact .here hdir h
    · exact .above hdir h
    · exact .entry hdir hname hn hkind h
    · exact .link hdir hname hn hkind hne h

theorem leads_nil_iff : Leads fs k l [] k' l' ↔ k' = k ∧ l' = l := by
  constructor
  · rintro ⟨⟩
    exact ⟨rfl, rfl⟩
  · rintro ⟨rfl, rfl⟩
    exact .nil k' l'

/-- Where names lead is determined by where they are looked up from. -/
theorem Leads.unique (h : Leads fs k l ns k' l') (h₁ : Leads fs k l ns k₁ l₁) :
    k' = k₁ ∧ l' = l₁ := by
  induction h with
  | nil => exact ⟨(leads_nil_iff.mp h₁).1.symm, (leads_nil_iff.mp h₁).2.symm⟩
  | here _ _ ih =>
    obtain ⟨-, ⟨-, h₁⟩ | ⟨hname, -⟩ | ⟨hname, -⟩⟩ := leads_cons_iff.mp h₁
    · exact ih h₁
    · exact absurd hname (by decide)
    · exact absurd rfl hname.ne_here
  | above _ _ ih =>
    obtain ⟨-, ⟨hname, -⟩ | ⟨-, h₁⟩ | ⟨hname, -⟩⟩ := leads_cons_iff.mp h₁
    · exact absurd hname (by decide)
    · exact ih h₁
    · exact absurd rfl hname.ne_above
  | entry _ hname hn hkind _ ih =>
    obtain ⟨-, ⟨rfl, -⟩ | ⟨rfl, -⟩ | ⟨-, n, hn', h₁⟩⟩ := leads_cons_iff.mp h₁
    · exact absurd rfl hname.ne_here
    · exact absurd rfl hname.ne_above
    · cases hn.symm.trans hn'
      rcases h₁ with ⟨-, h₁⟩ | ⟨_, _, -, hlink, -⟩
      · exact ih h₁
      · exact absurd hlink (hkind _)
  | link _ hname hn hkind _ _ ih =>
    obtain ⟨-, ⟨rfl, -⟩ | ⟨rfl, -⟩ | ⟨-, n, hn', h₁⟩⟩ := leads_cons_iff.mp h₁
    · exact absurd rfl hname.ne_here
    · exact absurd rfl hname.ne_above
    · cases hn.symm.trans hn'
      rcases h₁ with ⟨hno, -⟩ | ⟨_, _, heq, hlink, -, h₁⟩
      · exact absurd hkind (hno _)
      · cases Nat.add_right_cancel heq
        cases hkind.symm.trans hlink
        exact ih h₁

/-- Where names lead, further names are looked up from. -/
theorem Leads.append (h₁ : Leads fs k l ns k₁ l₁) (h₂ : Leads fs k₁ l₁ ms k' l') :
    Leads fs k l (ns ++ ms) k' l' := by
  induction h₁ with
  | nil => exact h₂
  | here hdir _ ih => exact .here hdir (ih h₂)
  | above hdir _ ih => exact .above hdir (ih h₂)
  | entry hdir hname hn hkind _ ih => exact .entry hdir hname hn hkind (ih h₂)
  | link hdir hname hn hkind hne _ ih =>
    rw [List.cons_append]
    refine .link hdir hname hn hkind hne ?_
    rw [← List.append_assoc]
    exact ih h₂

/-- Names that lead on from others go through where those lead. -/
theorem Leads.exists_of_append (h : Leads fs k l (ns ++ ms) k' l') :
    ∃ k₁ l₁, Leads fs k l ns k₁ l₁ ∧ Leads fs k₁ l₁ ms k' l' := by
  generalize hall : ns ++ ms = all at h
  -- with no names to take first, the whole lookup is the second one
  have hnil : ∀ {k l all k' l'}, [] ++ ms = all → Leads fs k l all k' l' →
      ∃ k₁ l₁, Leads fs k l [] k₁ l₁ ∧ Leads fs k₁ l₁ ms k' l' := by
    rintro k l all k' l' rfl h
    exact ⟨k, l, .nil k l, h⟩
  induction h generalizing ns with
  | nil k l =>
    obtain ⟨rfl, rfl⟩ := List.append_eq_nil_iff.mp hall
    exact ⟨k, l, .nil k l, .nil k l⟩
  | here hdir h ih =>
    cases ns with
    | nil => exact hnil hall (.here hdir h)
    | cons name ns =>
      obtain ⟨rfl, htail⟩ := List.cons.inj hall
      obtain ⟨k₁, l₁, h₁, h₂⟩ := ih htail
      exact ⟨k₁, l₁, .here hdir h₁, h₂⟩
  | above hdir h ih =>
    cases ns with
    | nil => exact hnil hall (.above hdir h)
    | cons name ns =>
      obtain ⟨rfl, htail⟩ := List.cons.inj hall
      obtain ⟨k₁, l₁, h₁, h₂⟩ := ih htail
      exact ⟨k₁, l₁, .above hdir h₁, h₂⟩
  | entry hdir hname hn hkind h ih =>
    cases ns with
    | nil => exact hnil hall (.entry hdir hname hn hkind h)
    | cons name ns =>
      obtain ⟨rfl, htail⟩ := List.cons.inj hall
      obtain ⟨k₁, l₁, h₁, h₂⟩ := ih htail
      exact ⟨k₁, l₁, .entry hdir hname hn hkind h₁, h₂⟩
  | @link k _ l _ _ rest _ target hdir hname hn hkind hne h ih =>
    cases ns with
    | nil => exact hnil hall (.link hdir hname hn hkind hne h)
    | cons name ns =>
      rw [List.cons_append] at hall
      obtain ⟨rfl, htail⟩ := List.cons.inj hall
      -- the names of the target stand before those that are left
      have hdetour : (lookupNames target ++ ns) ++ ms = lookupNames target ++ rest := by
        rw [List.append_assoc, htail]
      obtain ⟨k₁, l₁, h₁, h₂⟩ := ih hdetour
      exact ⟨k₁, l₁, .link hdir hname hn hkind hne h₁, h₂⟩

/-- **Names are looked up one after the other**, the later ones with the links that are left. -/
theorem leads_append_iff : Leads fs k l (ns ++ ms) k' l' ↔
    ∃ k₁ l₁, Leads fs k l ns k₁ l₁ ∧ Leads fs k₁ l₁ ms k' l' := by
  constructor
  · intro h
    exact h.exists_of_append
  · rintro ⟨k₁, l₁, h₁, h₂⟩
    exact h₁.append h₂

/-! ## What lookups find -/

/-- **A lookup that follows a last link finds a location exactly if the names lead there.** -/
theorem locateFrom_true_eq_ok_iff :
    fs.locateFrom true k l ns = .ok l' ↔ ∃ k', Leads fs k l ns k' l' := by
  constructor
  · induction k, ns using lookup_induction generalizing l with
    | hnil k =>
      rw [locateFrom_nil]
      rintro ⟨⟩
      exact ⟨k, .nil k _⟩
    | hcons k name ns ihns ihk =>
      intro h
      obtain ⟨hdir, ⟨rfl, h₁⟩ | ⟨rfl, h₁⟩ | ⟨hname, n, hn, h₁⟩⟩ := locateFrom_cons_eq_ok_iff.mp h
      · obtain ⟨k', h⟩ := ihns h₁
        exact ⟨k', .here hdir h⟩
      · obtain ⟨k', h⟩ := ihns h₁
        exact ⟨k', .above hdir h⟩
      · rcases h₁ with ⟨hkind, h⟩ | ⟨target, hkind, h⟩
        · obtain ⟨k', h⟩ := ihns h
          exact ⟨k', .entry hdir hname hn hkind h⟩
        · rw [if_neg (by simp)] at h
          obtain ⟨j, rfl, hne, h⟩ := h
          obtain ⟨k', h⟩ := ihk j _ rfl h
          exact ⟨k', .link hdir hname hn hkind hne h⟩
  · rintro ⟨k', h⟩
    induction h with
    | nil => exact locateFrom_nil
    | here hdir _ ih => exact locateFrom_cons_eq_ok_iff.mpr ⟨hdir, .inl ⟨rfl, ih⟩⟩
    | above hdir _ ih => exact locateFrom_cons_eq_ok_iff.mpr ⟨hdir, .inr (.inl ⟨rfl, ih⟩)⟩
    | entry hdir hname hn hkind _ ih =>
      exact locateFrom_cons_eq_ok_iff.mpr
        ⟨hdir, .inr (.inr ⟨hname, _, hn, .inl ⟨hkind, ih⟩⟩)⟩
    | link hdir hname hn hkind hne _ ih =>
      refine locateFrom_cons_eq_ok_iff.mpr ⟨hdir, .inr (.inr ⟨hname, _, hn, .inr ⟨_, hkind, ?_⟩⟩)⟩
      rw [if_neg (by simp)]
      exact ⟨_, rfl, hne, ih⟩

/-- **A lookup that does not follow a last link finds what bears the last name**, in the directory
that the names before it lead to. -/
theorem locateFrom_false_concat_eq_ok_iff (hhere : name ≠ Pathname.here)
    (habove : name ≠ Pathname.above) :
    fs.locateFrom false k l (ns ++ [name]) = .ok l' ↔
      IsEntryName name ∧ ∃ k₁ l₁, Leads fs k l ns k₁ l₁ ∧ fs.HoldsDirectory l₁ ∧
        l' = l₁ ++ [name] ∧ ∃ n, fs.get? l' = some n := by
  constructor
  · induction k, ns using lookup_induction generalizing l with
    | hnil k =>
      intro h
      obtain ⟨hdir, ⟨rfl, -⟩ | ⟨rfl, -⟩ | ⟨hname, n, hn, h⟩⟩ := locateFrom_cons_eq_ok_iff.mp h
      · exact absurd rfl hhere
      · exact absurd rfl habove
      · have heq : l' = l ++ [name] := by
          rcases h with ⟨-, h⟩ | ⟨target, -, h⟩
          · rw [locateFrom_nil] at h
            exact (Except.ok.inj h).symm
          · rw [if_pos ⟨rfl, rfl⟩] at h
            exact h
        exact ⟨hname, k, l, .nil k l, hdir, heq, n, heq ▸ hn⟩
    | hcons k first ns ihns ihk =>
      intro h
      obtain ⟨hdir, ⟨rfl, h₁⟩ | ⟨rfl, h₁⟩ | ⟨hfirst, n, hn, h₁⟩⟩ :=
        locateFrom_cons_eq_ok_iff.mp h
      · obtain ⟨hname, k₁, l₁, h, hrest⟩ := ihns h₁
        exact ⟨hname, k₁, l₁, .here hdir h, hrest⟩
      · obtain ⟨hname, k₁, l₁, h, hrest⟩ := ihns h₁
        exact ⟨hname, k₁, l₁, .above hdir h, hrest⟩
      · rcases h₁ with ⟨hkind, h⟩ | ⟨target, hkind, h⟩
        · obtain ⟨hname, k₁, l₁, h, hrest⟩ := ihns h
          exact ⟨hname, k₁, l₁, .entry hdir hfirst hn hkind h, hrest⟩
        · rw [if_neg (by simp)] at h
          obtain ⟨j, rfl, hne, h⟩ := h
          have hdetour := List.append_assoc (lookupNames target) ns [name]
          obtain ⟨hname, k₁, l₁, h, hrest⟩ := ihk j _ rfl (hdetour ▸ h)
          exact ⟨hname, k₁, l₁, .link hdir hfirst hn hkind hne h, hrest⟩
  · rintro ⟨hname, k₁, l₁, h, hdir₁, rfl, n, hn⟩
    induction h with
    | nil k l =>
      refine locateFrom_cons_eq_ok_iff.mpr ⟨hdir₁, .inr (.inr ⟨hname, n, hn, ?_⟩)⟩
      cases hkind : n.kind with
      | link target => exact .inr ⟨target, rfl, by simp⟩
      | file bytes => exact .inl ⟨by simp, locateFrom_nil⟩
      | directory => exact .inl ⟨by simp, locateFrom_nil⟩
    | here hdir _ ih =>
      exact locateFrom_cons_eq_ok_iff.mpr ⟨hdir, .inl ⟨rfl, ih hdir₁ hn⟩⟩
    | above hdir _ ih =>
      exact locateFrom_cons_eq_ok_iff.mpr ⟨hdir, .inr (.inl ⟨rfl, ih hdir₁ hn⟩)⟩
    | entry hdir hfirst hn' hkind _ ih =>
      exact locateFrom_cons_eq_ok_iff.mpr
        ⟨hdir, .inr (.inr ⟨hfirst, _, hn', .inl ⟨hkind, ih hdir₁ hn⟩⟩)⟩
    | link hdir hfirst hn' hkind hne _ ih =>
      refine locateFrom_cons_eq_ok_iff.mpr ⟨hdir, .inr (.inr ⟨hfirst, _, hn', .inr ⟨_, hkind, ?_⟩⟩)⟩
      rw [if_neg (by simp)]
      exact ⟨_, rfl, hne, List.append_assoc .. ▸ ih hdir₁ hn⟩

/-- Whatever fails in a lookup, fails because nothing usable is there. -/
theorem meansAbsent_of_locateFrom {e : Errno} (h : fs.locateFrom followLast k l ns = .error e) :
    e.meansAbsent = true := by
  induction k, ns using lookup_induction generalizing l with
  | hnil k =>
    rw [locateFrom_nil] at h
    cases h
  | hcons k name ns ihns ihk =>
    rw [locateFrom_cons] at h
    split at h
    · cases h; rfl
    split at h
    · exact ihns h
    split at h
    · exact ihns h
    split at h
    · cases h; rfl
    split at h
    · cases h; rfl
    · split at h
      · cases h
      · split at h
        · cases h; rfl
        · split at h
          · cases h; rfl
          · exact ihk _ _ rfl h
    · exact ihns h

/-- There is no link. -/
def WithoutLinks (fs : FileSystem) : Prop :=
  ∀ e ∈ fs.nodes, ∀ target, e.2.kind ≠ .link target

instance (kind : NodeKind) : Decidable (∀ target, kind ≠ .link target) :=
  match kind with
  | .file _ => .isTrue fun _ h => NodeKind.noConfusion h
  | .directory => .isTrue fun _ h => NodeKind.noConfusion h
  | .link target => .isFalse fun h => h target rfl

instance (fs : FileSystem) : Decidable fs.WithoutLinks := inferInstanceAs (Decidable (∀ e ∈ _, _))

/-- What is found at a location is an entry of the file system. -/
theorem mem_nodes_of_get? {n : Node} (h : fs.get? l = some n) : (l, n) ∈ fs.nodes := by
  obtain ⟨as, bs, heq, -⟩ := List.lookup_eq_some_iff.mp h
  rw [heq]
  exact List.mem_append_right as List.mem_cons_self

/-- Where there are no links, names that lead down lead to the location that they name. -/
theorem Leads.eq_append_of_withoutLinks (hfs : fs.WithoutLinks)
    (hns : ∀ c ∈ ns, c ≠ Pathname.here ∧ c ≠ Pathname.above) (h : Leads fs k l ns k' l') :
    l' = l ++ ns := by
  induction h with
  | nil => exact (List.append_nil _).symm
  | here => exact absurd rfl (hns _ List.mem_cons_self).1
  | above => exact absurd rfl (hns _ List.mem_cons_self).2
  | entry _ _ _ _ _ ih =>
    rw [ih (fun c hc => hns c (List.mem_cons_of_mem _ hc)), List.append_assoc,
      List.singleton_append]
  | link _ _ hn hkind => exact absurd hkind (hfs _ (mem_nodes_of_get? hn) _)

/-! ## What is found there -/

/-- All errors that are attached to nodes are mild. -/
def Mild (fs : FileSystem) : Prop := ∀ e ∈ fs.nodes, e.2.faults.Mild

instance (fs : FileSystem) : Decidable fs.Mild := inferInstanceAs (Decidable (∀ e ∈ _, _))

/-- No error is attached to any node. -/
def Calm (fs : FileSystem) : Prop := ∀ e ∈ fs.nodes, e.2.faults = {}

instance (fs : FileSystem) : Decidable fs.Calm := inferInstanceAs (Decidable (∀ e ∈ _, _))

theorem Calm.mild (hc : fs.Calm) : fs.Mild := fun e he => hc e he ▸ ⟨nofun, nofun, nofun⟩

section Access
variable {path : Text} {n : Node} {e : Errno}

theorem Calm.faults_of_get? (hc : fs.Calm) (h : fs.get? l = some n) : n.faults = {} :=
  hc (l, n) (mem_nodes_of_get? h)

theorem node_eq_ok_iff :
    fs.node followLast path = .ok (l, n) ↔
      fs.locate followLast path = .ok l ∧ fs.get? l = some n := by
  rw [node, bind_eq_ok_iff]
  constructor
  · rintro ⟨l₁, hl, h⟩
    cases hn : fs.get? l₁ with
    | none => rw [hn] at h; cases h
    | some n₁ =>
      rw [hn] at h
      cases h
      exact ⟨hl, hn⟩
  · rintro ⟨hl, hn⟩
    refine ⟨l, hl, ?_⟩
    rw [hn]
    rfl

theorem meansAbsent_of_locate (h : fs.locate followLast path = .error e) :
    e.meansAbsent = true := by
  rw [locate] at h
  split at h
  · cases h; rfl
  · exact meansAbsent_of_locateFrom h

theorem meansAbsent_of_node (h : fs.node followLast path = .error e) : e.meansAbsent = true := by
  rw [node, bind_eq_error_iff] at h
  rcases h with h | ⟨l, -, h⟩
  · exact meansAbsent_of_locate h
  · split at h <;> cases h
    rfl

/-- Without injected errors, what a path leads to can be probed. -/
theorem Calm.stat_eq (hc : fs.Calm) : fs.stat followLast path =
    (fs.node followLast path).map (·.2) := by
  rw [stat]
  cases h : fs.node followLast path with
  | error e => rfl
  | ok found =>
    obtain ⟨l, n⟩ := found
    show (do raise n.faults.stat; return n) = _
    rw [hc.faults_of_get? (node_eq_ok_iff.mp h).2]
    rfl

theorem Calm.stat_eq_ok_iff (hc : fs.Calm) :
    fs.stat followLast path = .ok n ↔ ∃ l, fs.node followLast path = .ok (l, n) := by
  rw [hc.stat_eq, map_eq_ok_iff]
  constructor
  · rintro ⟨⟨l, n₁⟩, h, rfl⟩
    exact ⟨l, h⟩
  · rintro ⟨l, h⟩
    exact ⟨(l, n), h, rfl⟩

/-- Without injected errors, a directory that a path leads to can be listed. -/
theorem Calm.list_eq_ok_iff (hc : fs.Calm) {names : List Text} :
    fs.list path = .ok names ↔
      ∃ l n, fs.node true path = .ok (l, n) ∧ n.kind = .directory ∧ names = fs.childrenAt l := by
  rw [list, bind_eq_ok_iff]
  constructor
  · rintro ⟨⟨l, n⟩, hn, h⟩
    refine ⟨l, n, hn, ?_⟩
    simp only [hc.faults_of_get? (node_eq_ok_iff.mp hn).2] at h
    obtain ⟨⟨kind, faults⟩, inode⟩ := n
    cases kind <;> cases h
    exact ⟨rfl, rfl⟩
  · rintro ⟨l, n, hn, hdir, rfl⟩
    refine ⟨(l, n), hn, ?_⟩
    simp only [hc.faults_of_get? (node_eq_ok_iff.mp hn).2, hdir]
    rfl

theorem eq_some_of_raise {fault : Option Errno} (h : raise fault = .error e) : fault = some e := by
  cases fault with
  | none => cases h
  | some e' =>
    cases h
    rfl

/-- Where errors are mild, a probe fails only because nothing usable is there. -/
theorem Mild.meansAbsent_of_stat (hm : fs.Mild) (h : fs.stat followLast path = .error e) :
    e.meansAbsent = true := by
  rw [stat, bind_eq_error_iff] at h
  rcases h with h | ⟨⟨l, n⟩, hn, h⟩
  · exact meansAbsent_of_node h
  · have hfaults := hm (l, n) (mem_nodes_of_get? (node_eq_ok_iff.mp hn).2)
    rcases bind_eq_error_iff.mp h with h | ⟨_, -, h⟩
    · exact Errno.meansAbsent_of_mem (hfaults.stat e (eq_some_of_raise h))
    · cases h

theorem Mild.meansAbsent_of_list (hm : fs.Mild) (h : fs.list path = .error e) :
    e.meansAbsent = true := by
  rw [list, bind_eq_error_iff] at h
  rcases h with h | ⟨⟨l, n⟩, hn, h⟩
  · exact meansAbsent_of_node h
  · have hfaults := hm (l, n) (mem_nodes_of_get? (node_eq_ok_iff.mp hn).2)
    rcases bind_eq_error_iff.mp h with h | ⟨_, -, h⟩
    · exact Errno.meansAbsent_of_mem (hfaults.listing e (eq_some_of_raise h))
    · split at h <;> cases h
      rfl

/-- Where errors are mild, a file cannot be read only where there is none or a directory. -/
theorem Mild.meansAbsent_of_read (hm : fs.Mild) (h : fs.read path = .error e) :
    e.meansAbsent = true ∨ e = .isDirectory := by
  rw [read, bind_eq_error_iff] at h
  rcases h with h | ⟨⟨l, n⟩, hn, h⟩
  · exact .inl (meansAbsent_of_node h)
  · have hfaults := hm (l, n) (mem_nodes_of_get? (node_eq_ok_iff.mp hn).2)
    rcases bind_eq_error_iff.mp h with h | ⟨_, -, h⟩
    · exact (List.mem_cons.mp (hfaults.opening e (eq_some_of_raise h))).symm.imp_left
        Errno.meansAbsent_of_mem
    · split at h <;> cases h
      · exact .inr rfl
      · exact .inl rfl

end Access
end FileSystem
end PathFilter
