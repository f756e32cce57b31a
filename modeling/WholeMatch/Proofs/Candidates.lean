import WholeMatch.Proofs.Backtracking
import WholeMatch.Proofs.Overflowing
import WholeMatch.Proofs.Preference

namespace WholeMatch

namespace Backtrack

/-- Where the cursor stands, if nothing is left to match. -/
def Config.candidate : Config → List Nat
  | .search cur [] _ => [cur.pos]
  | .search _ (_ :: _) _ | .failed _ => []

/-- The candidates of a run, in the order it comes to them, up to the first that is the end of the
text. -/
def candidates (c : Halting) : Except Fault (List Nat) :=
  match h : step c.1 with
  | .error f => .error f
  | .ok .found | .ok .lost => .ok c.1.candidate
  | .ok (.next d) => do return c.1.candidate ++ (← candidates ⟨d, c.2.inv h⟩)
termination_by c
decreasing_by exact h

end Backtrack

/-- Where the machine comes to have nothing left to match. -/
def Pattern.candidates (p : Pattern) (text : Array Char) : Except Fault (List Nat) :=
  Backtrack.candidates ⟨_, Backtrack.halts_initial p text⟩

namespace Backtrack

section
variable (text : Array Char)

def Goal.ways : Goal → Nat → List Nat
  | .branches bs, i => branchesWays text bs i
  | .chain ts, i => branchWays text ts i
  | .again body rep rest count, i =>
    rep.ways text.size (branchesWays text body) (branchWays text rest) count i
  | .iterated body rep rest count entered, i =>
    if rep.min ≤ count ∧ i = entered then []
    else rep.ways text.size (branchesWays text body) (branchWays text rest) (count + 1) i

/-- Where the goals lead, one behind the other. -/
def contWays : List Goal → Nat → List Nat
  | [], i => [i]
  | goal :: cont, i => (goal.ways text i).flatMap (contWays cont)

def Frame.ways : Frame → List Nat
  | .resume cur cont => contWays text cont cur.pos
  | .shrink rest runs cont => runs.flatMap fun cur => contWays text (.chain rest :: cont) cur.pos

/-- The path that is taken comes first, then what the frames hold, the latest first. -/
def Config.ways : Config → List Nat
  | .search cur cont stack => contWays text cont cur.pos ++ stack.flatMap (Frame.ways text)
  | .failed stack => stack.flatMap (Frame.ways text)

end

section
variable {text : Array Char} {g : Guard} {rep : Repeat} {onward : Nat → List Nat}

end

section
variable {text : Array Char} {cur : Cursor} {cont : List Goal} {stack : List Frame}

end

end Backtrack

section
variable {size : Nat}

end

end WholeMatch
