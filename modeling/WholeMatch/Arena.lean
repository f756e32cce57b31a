import WholeMatch.Fault
import WholeMatch.Word

namespace WholeMatch

/-- A state: the id of the guard tested on entering it, if any, and the targets of its edges. -/
structure State where
  guard : Option Nat
  edges : List Nat
  deriving DecidableEq, Repr

/-- The states of an automaton. A state is known by its place, so edges may lead back, and ids stay
what they are while the arena grows. The guard of a state is tested where it is entered: an edge to
a state without one is free. -/
structure Arena where
  states : Array State
  deriving DecidableEq, Repr

/-- A part of an automaton that is entered at `start` and left at `stop`. -/
structure Fragment where
  start : Nat
  stop : Nat
  deriving DecidableEq, Repr

/-- A list with an element behind it, unless the list has it already. -/
def addNew {α : Type} [BEq α] (xs : List α) (x : α) : List α :=
  if xs.contains x then xs else xs ++ [x]

namespace Arena

def empty : Arena := ⟨#[]⟩

def size (a : Arena) : Nat := a.states.size

def state (a : Arena) (id : Nat) : Except Fault State := lookup a.states id

def edges (a : Arena) (id : Nat) : Except Fault (List Nat) := do return (← a.state id).edges

/-- Allocates a state without edges, and gives its id: the word that its place is cut to. -/
def alloc (a : Arena) (guard : Option Nat) : Nat × Arena :=
  (word a.states.size, ⟨a.states.push ⟨guard, []⟩⟩)

/-- Replaces the edges of a state. -/
def setEdges (a : Arena) (id : Nat) (change : List Nat → List Nat) : Except Fault Arena :=
  match a with
  | ⟨states⟩ =>
    if h : id < states.size then
      let ⟨guard, edges⟩ := states[id]
      .ok ⟨states.set id ⟨guard, change edges⟩ h⟩
    else .error .index

/-- Adds the edge from `source` to `target`, unless it is there. -/
def connect (a : Arena) (source target : Nat) : Except Fault Arena :=
  a.setEdges source (addNew · target)

/-- A copy under way: the arena, each state met so far with its copy, the latest first, and those
of them that were met last, in the order they were met. -/
structure Copying where
  arena : Arena
  copies : List (Nat × Nat)
  met : List (Nat × Nat)

/-- Gives `copy` the image of an edge to `target`. A target that was not met before is copied. -/
def Copying.edge (c : Copying) (copy target : Nat) : Except Fault Copying :=
  match c with
  | ⟨arena, copies, met⟩ =>
    match copies.lookup target with
    | some image => do return ⟨← arena.connect copy image, copies, met⟩
    | none => do
      let (image, arena) := arena.alloc (← arena.state target).guard
      return ⟨← arena.connect copy image, (target, image) :: copies, met ++ [(target, image)]⟩

def Copying.edges (copy : Nat) : List Nat → Copying → Except Fault Copying
  | [], c => .ok c
  | target :: targets, c => do Copying.edges copy targets (← c.edge copy target)

/-- Copies the edges of the states in `queue`, each given with its copy, and those of the states
met on the way, breadth first; `fuel` bounds their number. An id is a word and is met once, so
there are no more of them than words. -/
def copyAll : (fuel : Nat) → (queue : List (Nat × Nat)) → Arena → (copies : List (Nat × Nat)) →
    Except Fault Arena
  | _, [], arena, _ => .ok arena
  | 0, _ :: _, _, _ => .error .endless
  | fuel + 1, (id, copy) :: queue, arena, copies => do
    let ⟨arena, copies, met⟩ ← Copying.edges copy (← arena.edges id) ⟨arena, copies, []⟩
    copyAll fuel (queue ++ met) arena copies

/-- Copies what is reachable from the entry of a fragment without going on behind its exit. The
exit of the copy comes first and has no edges; guards are shared. -/
def cloneFragment (a : Arena) (f : Fragment) : Except Fault (Fragment × Arena) := do
  let (stop, a) := a.alloc (← a.state f.stop).guard
  if f.start = f.stop then return (⟨stop, stop⟩, a)
  else
    let (start, a) := a.alloc (← a.state f.start).guard
    let copies := [(f.start, start), (f.stop, stop)]
    return (⟨start, stop⟩, ← copyAll words [(f.start, start)] a copies)

end Arena

end WholeMatch
