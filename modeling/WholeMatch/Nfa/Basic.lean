import WholeMatch.Arena
import WholeMatch.IndexSet
import WholeMatch.Pattern.Guard

namespace WholeMatch

/-- The states, the table of the guards they name, and where a run starts and where it accepts. -/
structure Nfa where
  arena : Arena
  guards : Array Guard
  start : Nat
  accept : Nat

namespace Nfa

/-- The number of states allocated, the unreachable ones among them. -/
def size (n : Nfa) : Nat := n.arena.size

def edges (n : Nfa) (id : Nat) : Except Fault (List Nat) := n.arena.edges id

/-- The guard tested on entering a state. -/
def guardOf (n : Nfa) (id : Nat) : Except Fault (Option Guard) := do
  match (← n.arena.state id).guard with
  | none => return none
  | some g => return some (← lookup n.guards g)

/-- Adds the targets in turn. -/
def addTargets : List Nat → IndexSet → Except Fault IndexSet
  | [], seen => .ok seen
  | target :: targets, seen => do addTargets targets (← seen.insert target).2

theorem capacity_of_addTargets {targets : List Nat} {seen after : IndexSet}
    (h : addTargets targets seen = .ok after) : after.capacity = seen.capacity := by
  induction targets generalizing seen with
  | nil => cases h; rfl
  | cons target targets ih =>
    obtain ⟨_, hi, h⟩ := bind_eq_ok.mp h
    rw [ih h, IndexSet.capacity_of_insert hi]

/-- Adds the targets of every member from the one numbered `i` on, the members this adds among
them. -/
def closeFrom (n : Nfa) (i : Nat) (seen : IndexSet) : Except Fault IndexSet :=
  if h : i < seen.size then
    have inside : i < seen.dense.size := Nat.lt_of_lt_of_le h seen.size_le
    match n.edges seen.dense[i] with
    | .error f => .error f
    | .ok targets =>
      match ha : addTargets targets seen with
      | .error f => .error f
      | .ok after =>
        have : after.dense.size = seen.dense.size := capacity_of_addTargets ha
        n.closeFrom (i + 1) after
  else .ok seen
termination_by seen.dense.size - i

/-- The states reachable from the start, breadth first. -/
def reachable (n : Nfa) : Except Fault (List Nat) := do
  let (_, seen) ← (IndexSet.empty n.size).insert n.start
  return (← n.closeFrom 0 seen).toList

end Nfa

end WholeMatch
