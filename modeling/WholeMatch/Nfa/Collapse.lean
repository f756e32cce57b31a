import WholeMatch.Nfa.Basic

/-! A state without a guard that is entered from one state only adds nothing: its edges can start at
that state. `Nfa.collapse` merges such states away. It walks over the reachable states once,
breadth first, and merges into each what can be merged before it goes on. The start is never
merged, and when the accepting state is, the state it went into accepts. -/

namespace WholeMatch

namespace Nfa

/-- A collapse under way. `entries` lists, for each state, the reachable states with an edge to
it. -/
structure Collapsing where
  arena : Arena
  accept : Nat
  entries : Array (List Nat)
  gone : Array Bool
  merged : Nat

/-- Notes `id` as an entry of each of the targets. -/
def noteEntries (id : Nat) : List Nat → Array (List Nat) → Except Fault (Array (List Nat))
  | [], entries => .ok entries
  | target :: targets, entries => do
    noteEntries id targets (← store entries target (addNew (← lookup entries target) id))

/-- The entries of every state, from the edges of the states listed. -/
def entriesFrom (n : Nfa) : List Nat → Array (List Nat) → Except Fault (Array (List Nat))
  | [], entries => .ok entries
  | id :: ids, entries => do n.entriesFrom ids (← noteEntries id (← n.edges id) entries)

namespace Collapsing

/-- Whether the target of an edge of `id` can be merged into it. -/
def mergeable (c : Collapsing) (start id target : Nat) : Except Fault Bool := do
  if target == id || target == start then return false
  else if (← c.arena.state target).guard.isSome then return false
  else return (← lookup c.entries target) == [id]

/-- The first of the targets that can be merged into `id`. -/
def firstMergeable (c : Collapsing) (start id : Nat) : List Nat → Except Fault (Option Nat)
  | [] => .ok none
  | target :: targets => do
    if ← c.mergeable start id target then return some target
    else c.firstMergeable start id targets

/-- Gives `id` the edges that `target` had. -/
def inherit (id target : Nat) : List Nat → Arena → Array (List Nat) →
    Except Fault (Arena × Array (List Nat))
  | [], arena, entries => .ok (arena, entries)
  | next :: rest, arena, entries => do
    let before ← lookup entries next
    let entries ← store entries next (addNew (before.filter (· != target)) id)
    inherit id target rest (← arena.connect id next) entries

/-- Merges `target` into `id`. -/
def merge (c : Collapsing) (id target : Nat) : Except Fault Collapsing :=
  match c with
  | ⟨arena, accept, entries, gone, merged⟩ => do
    let inherited ← arena.edges target
    let arena ← arena.setEdges target fun _ => []
    let arena ← arena.setEdges id (·.erase target)
    let (arena, entries) ← inherit id target inherited arena entries
    let entries ← store entries target []
    let gone ← store gone target true
    return ⟨arena, if target = accept then id else accept, entries, gone, merged + 1⟩

/-- Merges into `id` until nothing more can be; `fuel` bounds the number of merges. -/
def absorb (start id : Nat) : (fuel : Nat) → Collapsing → Except Fault Collapsing
  | 0, _ => .error .endless
  | fuel + 1, c => do
    match ← c.firstMergeable start id (← c.arena.edges id) with
    | none => return c
    | some target => absorb start id fuel (← c.merge id target)

/-- Visits the states in turn, leaving out those that are gone. -/
def visit (start : Nat) : List Nat → Collapsing → Except Fault Collapsing
  | [], c => .ok c
  | id :: ids, c => do
    if ← lookup c.gone id then visit start ids c
    else visit start ids (← absorb start id (c.arena.size + 1) c)

end Collapsing

/-- Merges away the free states with a single entry, and gives their number. -/
def collapse (n : Nfa) : Except Fault (Nat × Nfa) := do
  let order ← n.reachable
  let entries ← n.entriesFrom order (Array.replicate n.size [])
  let size := n.size
  match n with
  | ⟨arena, guards, start, accept⟩ =>
    let c ← Collapsing.visit start order ⟨arena, accept, entries, Array.replicate size false, 0⟩
    return (c.merged, ⟨c.arena, guards, start, c.accept⟩)

end Nfa

end WholeMatch
