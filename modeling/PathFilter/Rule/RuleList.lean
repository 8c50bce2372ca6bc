import PathFilter.Rule.Basic
/-!
Lists of rules, what they say of a path, and how the verdicts of several lists make one decision.
The last rule that matches decides. An ignore list denies what it matches and has no opinion of the
rest. An include list allows what it matches and denies the rest, but has no opinion of directories
that may contain something it matches.
-/

namespace PathFilter

/-- What a list of rules says of a path. -/
inductive Verdict where
  | allowed
  | denied
  | noOpinion
deriving DecidableEq, Repr

/-- Rules in order, of an ignore list or of an include list. -/
structure RuleList where
  rules : List Rule
  /-- Whether this is an include list. -/
  allow : Bool
deriving DecidableEq

namespace RuleList

/-- What a rule of the list says of a path that it matches. -/
def opinion (allow : Bool) (r : Rule) : Verdict :=
  if r.negated != allow then .allowed else .denied

/-- What the last rule that matches says. -/
def lastOpinion (allow : Bool) (c : Candidate) (rules : List Rule) : Verdict :=
  rules.foldl (fun v r => if r.appliesTo c then opinion allow r else v) .noOpinion

/-- What the list says of a path. -/
def verdict (l : RuleList) (c : Candidate) : Verdict :=
  match lastOpinion l.allow c l.rules with
  | .noOpinion =>
    if l.rules.isEmpty || !l.allow || l.rules.any (·.mayMatchWithin c) then .noOpinion else .denied
  | v => v

/-- Whether a rule of the list looks at the first line of a file. -/
def readsFirstLine (l : RuleList) : Bool :=
  l.rules.any Rule.readsFirstLine

/-- A short account of the list under a title. -/
def summary (title : Text) (l : RuleList) : Text :=
  title ++ "(rules=".toList ++ Text.ofNat l.rules.length ++ ", allow=".toList ++
    (if l.allow then "True" else "False").toList ++ ")".toList

end RuleList

/-! ## Precedence -/

/-- How the verdicts of several lists combine. -/
inductive Precedence where
  /-- The last list with an opinion decides, but what an include list denies stays denied. -/
  | lastOpinion
  /-- No list may deny. -/
  | allAllow
deriving DecidableEq, Repr

namespace Precedence

/-- The names of the modes. -/
def written : List (Text × Precedence) :=
  [("last_opinion".toList, lastOpinion), ("all_allow".toList, allAllow)]

/-- The name of a mode. -/
def name : Precedence → Text
  | lastOpinion => "last_opinion".toList
  | allAllow => "all_allow".toList

/-- The mode with a given name; any other name stands for the last opinion. -/
def ofName (name : Text) : Precedence :=
  (written.lookup name).getD lastOpinion

/-- The last opinion of lists that follow the opinion `v`, with the denials of include lists
final. -/
def lastOf (c : Candidate) (v : Verdict) : List RuleList → Verdict
  | [] => v
  | l :: rest =>
    match l.verdict c with
    | .noOpinion => lastOf c v rest
    | .denied => if l.allow then .denied else lastOf c .denied rest
    | .allowed => lastOf c .allowed rest

/-- Whether the lists together allow a candidate. -/
def allows (p : Precedence) (ls : List RuleList) (c : Candidate) : Bool :=
  match p with
  | lastOpinion => lastOf c .noOpinion ls ≠ .denied
  | allAllow => ls.all fun l => l.verdict c ≠ .denied

end Precedence

end PathFilter
