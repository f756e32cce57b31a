import WholeMatch.Word
import WholeMatch.Pattern.Guard

namespace WholeMatch

/-- How often a term is repeated: at least `min` times, and at most `max` times where there is a
bound. -/
structure Repeat where
  min : Nat
  max : Option Nat
  deriving DecidableEq, Repr

namespace Repeat

def once : Repeat := ⟨1, some 1⟩

/-- Bounds given as numbers. -/
def ofNumbers (min : Nat) (max : Option Nat) : Repeat := ⟨word min, max.map word⟩

/-- One more repetition may follow `count` of them. -/
def allowsMore (r : Repeat) (count : Nat) : Bool := r.max.all (count < ·)

end Repeat

/-- A repeated guard, or a repeated group of branches. The label of a term runs on to the end of
its branch; the `inner` label of a group is what stands between its parentheses. -/
inductive Term where
  | guard (g : Guard) (rep : Repeat) (label : String)
  | group (branches : List (List Term)) (inner : String) (rep : Repeat) (label : String)

/-- The terms of one alternative, in order. -/
abbrev Branch := List Term

/-- The alternatives in order. Every node keeps the text it stands for; the subset construction
tells guards apart by it. -/
structure Pattern where
  branches : List Branch
  label : String

namespace Term

def rep : Term → Repeat
  | guard _ rep _ => rep
  | group _ _ rep _ => rep

def label : Term → String
  | guard _ _ label => label
  | group _ _ _ label => label

end Term

mutual

/-- No charset of the term holds an assertion. -/
def Term.plain : Term → Bool
  | .guard g _ _ => g.plain
  | .group branches _ _ _ => plainBranches branches

def plainBranch : List Term → Bool
  | [] => true
  | t :: ts => t.plain && plainBranch ts

def plainBranches : List (List Term) → Bool
  | [] => true
  | b :: bs => plainBranch b && plainBranches bs

end

/-- No charset of the pattern holds an assertion. Every pattern that is read from text is plain. -/
def Pattern.plain (p : Pattern) : Bool := plainBranches p.branches

end WholeMatch
