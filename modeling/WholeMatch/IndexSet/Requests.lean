import WholeMatch.IndexSet

namespace WholeMatch

inductive SetOp where
  | insert (i : Nat)
  | contains (i : Nat)
  | clear
  | capacity
  | size
  | isEmpty
  deriving DecidableEq, Repr

inductive SetAnswer where
  | flag (b : Bool)
  | number (n : Nat)
  | done
  deriving DecidableEq, Repr

def IndexSet.perform (s : IndexSet) : SetOp → Except Fault (SetAnswer × IndexSet)
  | .insert i => do
    let (fresh, after) ← s.insert i
    return (.flag fresh, after)
  | .contains i => do return (.flag (← s.contains i), s)
  | .clear => .ok (.done, s.clear)
  | .capacity => .ok (.number s.capacity, s)
  | .size => .ok (.number s.size, s)
  | .isEmpty => .ok (.flag s.isEmpty, s)

inductive FrontierOp where
  | current (op : SetOp)
  | next (op : SetOp)
  | advance
  deriving DecidableEq, Repr

def Frontiers.perform (f : Frontiers) : FrontierOp → Except Fault (SetAnswer × Frontiers)
  | .current op => do
    let (answer, after) ← f.current.perform op
    return (answer, ⟨after, f.next⟩)
  | .next op => do
    let (answer, after) ← f.next.perform op
    return (answer, ⟨f.current, after⟩)
  | .advance => .ok (.done, f.advance)

end WholeMatch
