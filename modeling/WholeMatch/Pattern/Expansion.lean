import WholeMatch.Pattern.Tree

namespace WholeMatch

/-- The largest word of 64 bits. -/
def wordMax : Nat := 0xFFFFFFFFFFFFFFFF

def saturate (n : Nat) : Nat := min n wordMax

/-- The states of `rep` many copies of something with `atom` states, with an entry and an exit. -/
def Repeat.expansion (rep : Repeat) (atom : Nat) : Nat :=
  saturate (saturate (atom * Nat.max (rep.max.getD rep.min) 1) + 2)

mutual

def Term.expansion : Term → Nat
  | .guard _ rep _ => rep.expansion 2
  | .group branches _ rep _ => rep.expansion (saturate (2 + branchesExpansion branches))

def branchExpansion : List Term → Nat
  | [] => 0
  | t :: ts => saturate (t.expansion + branchExpansion ts)

def branchesExpansion : List (List Term) → Nat
  | [] => 0
  | b :: bs => saturate (branchExpansion b + branchesExpansion bs)

end

/-- An estimate, from above, of the number of states the automaton of a pattern has. Sums and
products stay at the largest word instead of overflowing. -/
def Pattern.expansion (p : Pattern) : Nat := saturate (2 + branchesExpansion p.branches)

end WholeMatch
