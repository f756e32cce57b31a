import WholeMatch.Nfa.Basic

namespace WholeMatch

/-- A set of automaton states, ascending, and the composites its edges lead to. The root and the
composite of the accepting state alone have no guard. -/
structure Composite where
  guard : Option Nat
  members : List Nat
  accepting : Bool
  edges : List Nat
  deriving DecidableEq, Repr

/-- The composites in the order they were found. The first is the root. -/
structure Dfa where
  composites : Array Composite
  guards : Array Guard

namespace Dfa

def root : Nat := 0

def size (d : Dfa) : Nat := d.composites.size

def composite (d : Dfa) (id : Nat) : Except Fault Composite := lookup d.composites id

/-- The guard tested on entering a composite. -/
def guardOf (d : Dfa) (id : Nat) : Except Fault (Option Guard) := do
  match (← d.composite id).guard with
  | none => return none
  | some g => return some (← lookup d.guards g)

end Dfa

end WholeMatch
