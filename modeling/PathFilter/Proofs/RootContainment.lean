import PathFilter.Proofs.RelativeNames

/-! # What lies below the root

A path has a meaning that needs no look at the files: its components lead, one after the other,
from the root directory or from an anchor to some directory or file (`Path.Leads`,
`Path.Denotes`).  **A resolver finds exactly the paths below its root**
(`Resolver.relative?_exact`): a path has a name relative to the root if it denotes the root followed
by at least one component, and the root followed by this name is what it denotes.

This holds of every path but those at a home directory (`Path.AtHome`), which are paths of that
directory instead.  Such a path begins with `~` or with `./` (`Path.AtHome.begins`): the components
that stand for the directory they are found in are left out before the first one is looked at, so
`./~/x` is resolved like `~/x` (`Resolver.resolve_of_atHome`), and what is called `~` below the root
is not found by it (`Resolver.relative?_behind_dot`).
-/

namespace PathFilter
open Pathname

/-! ## The meaning of a path -/

namespace Path

/-- Components, taken one after the other, lead from a directory to another. Directories are given
by the names that lead down to them from an anchor. -/
inductive Leads : List Text → List Text → List Text → Prop
  | arrive (ds : List Text) : Leads ds [] ds
  | stay {ds cs es : List Text} {c : Text} (hc : c = [] ∨ c = here) (h : Leads ds cs es) :
    Leads ds (c :: cs) es
  | up {ds cs es : List Text} {d : Text} (h : Leads ds cs es) : Leads (ds ++ [d]) (above :: cs) es
  /-- Above an anchor there is nothing to go up to. -/
  | top {cs es : List Text} (h : Leads [] cs es) : Leads [] (above :: cs) es
  | down {ds cs es : List Text} {c : Text} (hc : IsProper c) (h : Leads (ds ++ [c]) cs es) :
    Leads ds (c :: cs) es

/-- What a path denotes that is looked up from a directory. Exactly two leading slashes are an
anchor of their own. -/
inductive Denotes (base : Pathname) : Text → Pathname → Prop
  | relative {p : Text} {es : List Text} (hp : p.head? ≠ some '/')
    (h : Leads base.components (Text.splitOn '/' p) es) : Denotes base p ⟨base.anchor, es⟩
  | anchored {a : Anchor} {t : Text} {es : List Text} (ha : a ≠ .relative) (ht : t.head? ≠ some '/')
    (h : Leads [] (Text.splitOn '/' t) es) : Denotes base (a.toText ++ t) ⟨a, es⟩
  | slashes {t : Text} {es : List Text} (h : Leads [] (Text.splitOn '/' t) es) :
    Denotes base ('/' :: '/' :: '/' :: t) ⟨.slash, es⟩

variable {ds cs es : List Text} {c d p t : Text} {a : Anchor} {base q : Pathname}

theorem push_concat (hd : d ≠ above) (ds : List Text) :
    push a (ds ++ [d]).reverse above = ds.reverse := by
  rw [List.reverse_append, List.reverse_singleton, List.singleton_append]
  simp [push, hd]

theorem push_top (ha : a ≠ .relative) : push a [] above = [] := by
  simp [push, ha]

/-- Components lead where putting them on a stack does. -/
theorem Leads.eq_foldl (ha : a ≠ .relative) (h : Leads ds cs es)
    (hds : ∀ d ∈ ds, IsProper d) :
    es = ((cs.filter fun c => c ≠ [] && c ≠ here).foldl (push a) ds.reverse).reverse := by
  induction h with
  | arrive ds => rw [List.filter_nil, List.foldl_nil, List.reverse_reverse]
  | stay h _ ih =>
    rw [List.filter_cons_of_neg (by rcases h with rfl | rfl <;> simp)]
    exact ih hds
  | @up ds cs es d _ ih =>
    obtain ⟨hds, hd⟩ := List.forall_mem_append.mp hds
    have hproper := (List.forall_mem_singleton.mp hd).2.2
    rw [List.filter_cons_of_pos (by decide), List.foldl_cons, push_concat hproper]
    exact ih hds
  | top _ ih =>
    rw [List.filter_cons_of_pos (by decide), List.foldl_cons, List.reverse_nil, push_top ha]
    exact ih hds
  | @down c ds cs es h _ ih =>
    rw [List.filter_cons_of_pos (by simp [h.1.1, h.2.1]), List.foldl_cons,
      push_of_ne_above h.2.2]
    have hall := ih (List.forall_mem_append.mpr ⟨hds, List.forall_mem_singleton.mpr h⟩)
    rwa [List.reverse_append, List.reverse_singleton, List.singleton_append] at hall

/-- Components without slashes lead somewhere from any directory. -/
theorem exists_leads (hcs : ∀ c ∈ cs, '/' ∉ c) (ds : List Text) : ∃ es, Leads ds cs es := by
  induction cs generalizing ds with
  | nil => exact ⟨ds, .arrive ds⟩
  | cons c cs ih =>
    obtain ⟨hc, hrest⟩ := List.forall_mem_cons.mp hcs
    by_cases hstay : c = [] ∨ c = here
    · obtain ⟨es, h⟩ := ih hrest ds
      exact ⟨es, h.stay hstay⟩
    obtain ⟨hne, hhere⟩ := not_or.mp hstay
    by_cases habove : c = above
    · subst habove
      rcases List.eq_nil_or_concat ds with rfl | ⟨ds, d, rfl⟩
      · obtain ⟨es, h⟩ := ih hrest []
        exact ⟨es, h.top⟩
      · obtain ⟨es, h⟩ := ih hrest ds
        exact ⟨es, List.concat_eq_append ▸ h.up⟩
    · obtain ⟨es, h⟩ := ih hrest (ds ++ [c])
      exact ⟨es, h.down ⟨⟨hne, hc⟩, hhere, habove⟩⟩

/-- What components lead to from a directory is what normalising them behind it gives. -/
theorem Leads.normalize_eq (ha : a ≠ .relative) (h : Leads ds (Text.splitOn '/' t) es)
    (hds : ∀ d ∈ ds, IsProper d) : (⟨a, ds ++ componentsOf t⟩ : Pathname).normalize = ⟨a, es⟩ := by
  rw [Pathname.normalize, List.foldl_append, foldl_push_of_ne_above (fun d hd => (hds d hd).2.2),
    List.append_nil, h.eq_foldl ha hds]
  rfl

theorem componentsOf_slash (t : Text) : componentsOf ('/' :: t) = componentsOf t :=
  componentsOf_append_cons [] t

/-- A path denotes its normal form. -/
theorem Denotes.eq_normalize (hbase : base.IsNormal) (h : Denotes base p q) :
    q = (base.under (ofText p)).normalize := by
  cases h with
  | relative hp h =>
    rw [under, if_pos (show (ofText p).anchor = .relative from Anchor.ofText_of_head?_ne hp)]
    exact (h.normalize_eq hbase.anchored hbase.proper).symm
  | @anchored a t es ha ht h =>
    have hread : ofText (a.toText ++ t) = ⟨a, [] ++ componentsOf t⟩ := by
      rw [ofText, Anchor.ofText_toText_append ha ht, componentsOf,
        Anchor.filter_splitOn_toText_append (by simp)]
      rfl
    rw [hread, under, if_neg ha, h.normalize_eq ha (List.forall_mem_nil _)]
  | @slashes t es h =>
    have hread : ofText ('/' :: '/' :: '/' :: t) = ⟨.slash, [] ++ componentsOf t⟩ := by
      rw [ofText, componentsOf_slash, componentsOf_slash, componentsOf_slash]
      rfl
    rw [hread, under, if_neg Anchor.noConfusion,
      h.normalize_eq Anchor.noConfusion (List.forall_mem_nil _)]

theorem exists_denotes (base : Pathname) (p : Text) : ∃ q, Denotes base p q := by
  have hleads : ∀ t ds, ∃ es, Leads ds (Text.splitOn '/' t) es := fun t =>
    exists_leads fun c hc => Text.not_mem_of_mem_splitOn hc
  by_cases hp : p.head? = some '/'
  · obtain ⟨t, rfl⟩ := List.head?_eq_some_iff.mp hp
    by_cases ht : t.head? = some '/'
    · obtain ⟨u, rfl⟩ := List.head?_eq_some_iff.mp ht
      by_cases hu : u.head? = some '/'
      · obtain ⟨v, rfl⟩ := List.head?_eq_some_iff.mp hu
        obtain ⟨es, h⟩ := hleads v []
        exact ⟨_, .slashes h⟩
      · obtain ⟨es, h⟩ := hleads u []
        exact ⟨_, .anchored (a := .doubleSlash) Anchor.noConfusion hu h⟩
    · obtain ⟨es, h⟩ := hleads t []
      exact ⟨_, .anchored (a := .slash) Anchor.noConfusion ht h⟩
  · obtain ⟨es, h⟩ := hleads p base.components
    exact ⟨_, .relative hp h⟩

/-- **The normal form of a path is what it denotes.** -/
theorem denotes_iff (hbase : base.IsNormal) :
    Denotes base p q ↔ q = (base.under (ofText p)).normalize := by
  refine ⟨Denotes.eq_normalize hbase, ?_⟩
  rintro rfl
  obtain ⟨q, hq⟩ := exists_denotes base p
  exact hq.eq_normalize hbase ▸ hq

/-! ## Paths at a home directory -/

/-- A relative path at a home directory: its first component that carries something begins with
`~`. -/
def AtHome (p : Text) : Prop :=
  p.head? ≠ some '/' ∧ ∃ ds t, (∀ d ∈ ds, d = [] ∨ d = here) ∧ p = dir ds ++ '~' :: t

/-- Components that carry nothing are not read. -/
theorem componentsOf_dir_append (hds : ∀ d ∈ ds, d = [] ∨ d = here) (t : Text) :
    componentsOf (dir ds ++ t) = componentsOf t := by
  induction ds with
  | nil => rfl
  | cons d ds ih =>
    obtain ⟨hd, hrest⟩ := List.forall_mem_cons.mp hds
    rw [dir_cons, List.append_assoc, List.cons_append, componentsOf_append_cons, ih hrest]
    rcases hd with rfl | rfl <;> rfl

theorem exists_componentsOf_tilde (t : Text) :
    ∃ user rest, componentsOf ('~' :: t) = ('~' :: user) :: rest := by
  rw [componentsOf, Text.splitOn, if_neg (by decide)]
  cases Text.splitOn '/' t with
  | nil => exact ⟨[], [], rfl⟩
  | cons piece pieces =>
    rw [List.filter_cons_of_pos (by simp [here])]
    exact ⟨piece, _, rfl⟩

/-- A path is at a home directory if its first component is, as it is read. -/
theorem atHome_iff : AtHome p ↔
    p.head? ≠ some '/' ∧ (componentsOf p).head?.bind List.head? = some '~' := by
  refine and_congr_right fun _ => ⟨?_, fun hfirst => ?_⟩
  · rintro ⟨ds, t, hds, rfl⟩
    obtain ⟨user, rest, hread⟩ := exists_componentsOf_tilde t
    rw [componentsOf_dir_append hds, hread]
    rfl
  · obtain ⟨first, hhead, hfirst⟩ := Option.bind_eq_some_iff.mp hfirst
    obtain ⟨rest, hread⟩ := List.head?_eq_some_iff.mp hhead
    obtain ⟨user, rfl⟩ := List.head?_eq_some_iff.mp hfirst
    obtain ⟨ds, behind, hsplit, hds, -, -⟩ := List.filter_eq_cons_iff.mp hread
    obtain ⟨t, ht⟩ : ∃ t, Text.joinWith '/' (('~' :: user) :: behind) = '~' :: t := by
      cases behind with
      | nil => exact ⟨user, rfl⟩
      | cons c cs => exact ⟨_, rfl⟩
    have htext := Text.joinWith_splitOn '/' p
    rw [hsplit, joinWith_append_right ds (List.cons_ne_nil _ _), ht] at htext
    refine ⟨ds, t, fun d hd => ?_, htext.symm⟩
    simpa [or_iff_not_imp_left] using hds d hd

/-- A path at a home directory begins with `~` or `./`. -/
theorem AtHome.begins (h : AtHome p) : p.head? = some '~' ∨ ∃ t, p = '.' :: '/' :: t := by
  obtain ⟨hhead, ds, t, hds, rfl⟩ := h
  cases ds with
  | nil => exact .inl rfl
  | cons d ds =>
    rcases hds d List.mem_cons_self with rfl | rfl
    · exact absurd rfl hhead
    · exact .inr ⟨_, rfl⟩

instance (p : Text) : Decidable (AtHome p) := decidable_of_iff' _ atHome_iff

end Path

theorem Pathname.below?_eq_some_iff_into {base q : Pathname} {cs : List Text} :
    base.below? q = some cs ↔ cs ≠ [] ∧ q = base.into cs := by
  obtain ⟨a, es⟩ := q
  rw [Pathname.below?_eq_some_iff, Pathname.into, Pathname.mk.injEq]
  exact and_left_comm

/-! ## Resolvers -/

section
open PathFilter.Path
variable {homes : Homes} {r : Resolver} {p cwd : Text} {root : Option Text} {q : Pathname}

/-- A path that is not at a home directory stands for itself. -/
theorem Homes.expandPathname_of_not_atHome (homes : Homes) (hp : ¬ AtHome p) :
    homes.expandPathname (ofText p) = .ok (ofText p) := by
  unfold Homes.expandPathname
  split
  · rename_i first rest heq
    have hanchor : Anchor.ofText p = .relative := congrArg Pathname.anchor heq
    have hcomponents : componentsOf p = first :: rest := congrArg Pathname.components heq
    have hfirst : first.head? ≠ some '~' := by
      intro hfirst
      refine hp (atHome_iff.mpr ⟨fun hslash => Anchor.ofText_ne_relative hslash hanchor, ?_⟩)
      rw [hcomponents]
      exact hfirst
    rw [if_neg hfirst]
  · rfl

namespace Resolver

/-- **A path that is not at a home directory is resolved to what it denotes.** -/
theorem resolve_eq_ok_iff (hr : r.base.IsNormal) (hp : ¬ AtHome p) :
    r.resolve homes p = .ok q ↔ Denotes r.base p q := by
  rw [resolve, homes.expandPathname_of_not_atHome hp, denotes_iff hr, Except.map, Except.ok.injEq]
  exact eq_comm

/-- A path at a home directory is resolved like the path that begins with `~`. -/
theorem resolve_of_atHome {ds : List Text} {t : Text} (hds : ∀ d ∈ ds, d = [] ∨ d = here)
    (hp : (dir ds ++ '~' :: t).head? ≠ some '/') :
    r.resolve homes (dir ds ++ '~' :: t) = r.resolve homes ('~' :: t) := by
  have hread : ofText (dir ds ++ '~' :: t) = ofText ('~' :: t) := by
    rw [ofText, ofText, componentsOf_dir_append hds, Anchor.ofText_of_head?_ne hp]
    rfl
  rw [resolve, resolve, hread]

/-- **A resolver finds exactly the paths below its root.**  The resolver is any that is accepted,
for any current directory, and the path is any that is not at a home directory.

The path denotes one pathname and is resolved to it.  It has no name relative to the root unless
this is the root followed by at least one component.  If it is, these components, with slashes
between them, are its name; the root followed by the name is what the path is resolved to, and has
the same name. -/
theorem relative?_exact (hcwd : cwd.head? = some '/') (hcreate : create homes cwd root = .ok r)
    (hp : ¬ AtHome p) :
    ∃ q, (∀ q', Denotes r.base p q' ↔ q' = q) ∧ r.resolve homes p = .ok q ∧
      (r.relative? homes p = .ok none ↔ ∀ cs, cs ≠ [] → q ≠ r.base.into cs) ∧
      ∀ cs, cs ≠ [] → q = r.base.into cs → ∃ name, name = Text.joinWith '/' cs ∧
        r.relative? homes p = .ok (some name) ∧ IsRelativeName name ∧
        r.root ++ name = q.toText ∧ r.relative? homes (r.root ++ name) = .ok (some name) := by
  have hr : r.base.IsNormal := isNormal_base hcwd hcreate
  have hroot : r.root = r.base.dirText := hr.slashed_toText
  obtain ⟨q, hq⟩ := exists_denotes r.base p
  have hresolve : r.resolve homes p = .ok q := (resolve_eq_ok_iff hr hp).mpr hq
  have hrelative : r.relative? homes p = .ok ((r.base.below? q).map (Text.joinWith '/')) := by
    rw [relative?, hresolve]
    rfl
  refine ⟨q, ?_, hresolve, ?_, ?_⟩
  · intro q'
    rw [denotes_iff hr, (denotes_iff hr).mp hq]
  · rw [hrelative, Except.ok.injEq, Option.map_eq_none_iff, Option.eq_none_iff_forall_ne_some]
    exact forall_congr' fun cs => (not_congr below?_eq_some_iff_into).trans not_and
  · intro cs hne hcs
    have hname : r.relative? homes p = .ok (some (Text.joinWith '/' cs)) := by
      rw [hrelative, below?_eq_some_iff_into.mpr ⟨hne, hcs⟩]
      rfl
    obtain ⟨cs', hne', hproper, htext⟩ := relative?_eq_ok_some hr hname
    refine ⟨_, rfl, hname, ⟨cs', hne', hproper, htext⟩, ?_, ?_⟩
    · rw [hroot, hcs, toText_into hr.anchored hne]
    · rw [hroot, htext]
      exact relative?_dirText_append r homes hr hne' hproper

/-- A path that leaves the root directory for one beside it and comes back. -/
theorem relative?_of_reentry :
    ∃ r, create ⟨none, []⟩ "/w".toList (some "../r".toList) = .ok r ∧
      Denotes r.base "../rx/..//r/a/./b/../c".toList (r.base.into ["a".toList, "c".toList]) ∧
      r.relative? ⟨none, []⟩ "../rx/..//r/a/./b/../c".toList = .ok (some "a/c".toList) ∧
      IsRelativeName "a/c".toList ∧ r.root ++ "a/c".toList = "/r/a/c".toList ∧
      r.relative? ⟨none, []⟩ "/r/a/c".toList = .ok (some "a/c".toList) ∧
      r.relative? ⟨none, []⟩ "../rx/a/c".toList = .ok none := by
  have hcreate : create ⟨none, []⟩ "/w".toList (some "../r".toList) =
      .ok ⟨⟨.slash, ["r".toList]⟩⟩ := by decide +kernel
  have hdenotes := (denotes_iff (p := "../rx/..//r/a/./b/../c".toList)
    (q := ⟨.slash, ["r".toList, "a".toList, "c".toList]⟩) (isNormal_base rfl hcreate)).mpr
    (by decide +kernel)
  obtain ⟨q, hq, -, -, hname⟩ := relative?_exact (p := "../rx/..//r/a/./b/../c".toList) rfl hcreate
    (by decide +kernel)
  obtain ⟨_, rfl, hfound, hproper, htext, hagain⟩ :=
    hname ["a".toList, "c".toList] (List.cons_ne_nil _ _) ((hq _).mp hdenotes).symm
  exact ⟨_, hcreate, hdenotes, hfound, hproper, by decide +kernel, hagain, by decide +kernel⟩

/-- **A path in the directory `~` of the root is looked for in a home directory**, though it does
not begin with `~` and denotes something below the root. -/
theorem relative?_behind_dot :
    ∃ r, create ⟨some "/home/u".toList, []⟩ "/".toList (some "/r".toList) = .ok r ∧
      "./~/x".toList.head? ≠ some '~' ∧
      Denotes r.base "./~/x".toList (r.base.into ["~".toList, "x".toList]) ∧
      (r.resolve ⟨some "/home/u".toList, []⟩ "./~/x".toList).map Pathname.toText =
        .ok "/home/u/x".toList ∧
      r.relative? ⟨some "/home/u".toList, []⟩ "./~/x".toList = .ok none := by
  have hcreate : create ⟨some "/home/u".toList, []⟩ "/".toList (some "/r".toList) =
      .ok ⟨⟨.slash, ["r".toList]⟩⟩ := by decide +kernel
  exact ⟨_, hcreate, by decide, (denotes_iff (isNormal_base rfl hcreate)).mpr (by decide +kernel),
    by decide +kernel, by decide +kernel⟩

end Resolver
end
end PathFilter
