import Std.Data.HashMap
import WholeMatch.Dfa.Basic
import WholeMatch.Word

/-! From a composite, all states that are entered next are found by following free edges from its
members. They are told apart by the text of the guard they are entered through, and those of one
text make one composite, even where two texts accept the same characters. A free accepting state
met on the way makes a composite of its own. A set of states that has a composite already, found
by its hash, is not given another. -/

namespace WholeMatch

/-- The hash of a list of ids: each is added to 131 times what came before, in words of 64 bits. -/
def canonicalHash (members : List Nat) : UInt64 :=
  members.foldl (fun hash id => hash * 131 + UInt64.ofNat id) 0

/-- The ids in ascending order, each once. -/
def ascending (ids : List Nat) : List Nat := (ids.mergeSort (· ≤ ·)).eraseReps

/-- States that are entered alike, in the order they were met: through guards of one text, or
freely and accepting. -/
structure Group where
  label : Option String
  states : List Nat
  deriving DecidableEq, Repr

/-- Adds a state to the group of a label, which is opened behind the others if it is new. -/
def addToGroup (label : Option String) (id : Nat) : List Group → List Group
  | [] => [⟨label, [id]⟩]
  | g :: gs =>
    if g.label = label then ⟨g.label, addNew g.states id⟩ :: gs
    else g :: addToGroup label id gs

namespace Nfa

/-- Enters the targets in turn, then goes on from the states of the stack, the latest first. -/
def groupsFrom (n : Nfa) (targets stack : List Nat) (seen : IndexSet) (groups : List Group) :
    Except Fault (List Group × IndexSet) :=
  match targets with
  | [] =>
    match stack with
    | [] => .ok (groups, seen)
    | id :: stack =>
      match n.edges id with
      | .error f => .error f
      | .ok targets => n.groupsFrom targets stack seen groups
  | target :: targets =>
    match n.guardOf target with
    | .error f => .error f
    | .ok (some guard) =>
      n.groupsFrom targets stack seen (addToGroup (some guard.label) target groups)
    | .ok none =>
      match h : seen.insert target with
      | .error f => .error f
      | .ok (false, after) =>
        have := IndexSet.eq_of_insert h
        n.groupsFrom targets stack after groups
      | .ok (true, after) =>
        have := IndexSet.room_of_insert h
        let groups := if target = n.accept then addToGroup none target groups else groups
        n.groupsFrom targets (target :: stack) after groups
termination_by (2 * seen.room + stack.length, targets.length)
decreasing_by
  · exact Prod.Lex.left _ _ (by simp)
  · exact Prod.Lex.right _ (by simp)
  · subst after; exact Prod.Lex.right _ (by simp)
  · exact Prod.Lex.left _ _ (by simp; omega)

end Nfa

/-- Composites under construction, and which of them have a given hash. -/
structure Subsets where
  composites : Array Composite
  index : Std.HashMap UInt64 (List Nat)

namespace Subsets

/-- The first of the listed composites that has the given members. -/
def find (composites : Array Composite) (members : List Nat) : List Nat → Except Fault (Option Nat)
  | [] => .ok none
  | id :: ids => do
    if (← lookup composites id).members = members then return some id
    else find composites members ids

/-- The composite of a set of states, made if there is none. Its id is the word that its place is
cut to. -/
def intern (s : Subsets) (accept : Nat) (guard : Option Nat) (states : List Nat) :
    Except Fault (Nat × Subsets) :=
  match s with
  | ⟨composites, index⟩ => do
    let members := ascending states
    let hash := canonicalHash members
    let bucket := index.getD hash []
    match ← find composites members bucket with
    | some id => return (id, ⟨composites, index⟩)
    | none =>
      let id := word composites.size
      return (id, ⟨composites.push ⟨guard, members, members.contains accept, []⟩,
        index.insert hash (bucket ++ [id])⟩)

/-- Adds an edge between two composites, unless it is there. -/
def connect (s : Subsets) (source target : Nat) : Except Fault Subsets :=
  match s with
  | ⟨composites, index⟩ => do
    let c ← lookup composites source
    return ⟨← store composites source { c with edges := addNew c.edges target }, index⟩

/-- Gives a composite its edges, one to the composite of each group. -/
def addEdges (n : Nfa) (id : Nat) : List Group → Subsets → Except Fault Subsets
  | [], s => .ok s
  | g :: gs, s => do
    let guard ← match g.label, g.states with
      | none, _ => pure none
      | some _, first :: _ => do pure (← n.arena.state first).guard
      | some _, [] => throw .index
    let (target, s) ← s.intern n.accept guard g.states
    addEdges n id gs (← s.connect id target)

/-- Completes a composite: those of its groups are found or made, and edges lead to them. -/
def completeOne (n : Nfa) (id : Nat) (s : Subsets) (seen : IndexSet) :
    Except Fault (Subsets × IndexSet) := do
  let c ← lookup s.composites id
  let (groups, seen) ← n.groupsFrom [] c.members.reverse seen.clear []
  return (← addEdges n id groups s, seen)

/-- How many places a table has: each has a number of 64 bits. -/
def places : Nat := 0x10000000000000000

/-- Completes composites in the order they are made, each by its id, until none is left. Where ids
repeat, that need not come to an end; `fuel` are the turns for which there are places. -/
def complete (n : Nfa) : (fuel turn : Nat) → Subsets → IndexSet → Except Fault (Array Composite)
  | 0, _, _, _ => .error .endless
  | fuel + 1, turn, s, seen =>
    if turn < s.composites.size then do
      let (s, seen) ← completeOne n (word turn) s seen
      complete n fuel (turn + 1) s seen
    else .ok s.composites

end Subsets

/-- The composites of an automaton. -/
def Dfa.ofNfa (n : Nfa) : Except Fault Dfa := do
  let (_, s) ← (⟨#[], ∅⟩ : Subsets).intern n.accept none [n.start]
  let composites ← Subsets.complete n Subsets.places 0 s (.empty n.size)
  return ⟨composites, n.guards⟩

end WholeMatch
