import WholeMatch.Word
import WholeMatch.Nfa.Collapse
import WholeMatch.Nfa.Simulate
import WholeMatch.Dfa.Subset
import WholeMatch.Dfa.Simulate
import WholeMatch.Dot

namespace WholeMatch

/-- From `collapse` on, the operations ask the automaton that was assembled last. -/
inductive BenchOp where
  | alloc (guard : Option Nat)
  | connect (source target : Nat)
  | copy (start stop : Nat)
  | arena
  | assemble (start accept : Nat)
  | collapse
  | nfa
  | dfa
  | nfaDot
  | dfaDot
  | isMatch (text : String)
  deriving DecidableEq, Repr

inductive BenchAnswer where
  | id (id : Nat)
  | edges (targets : List Nat)
  | copied (copy : Fragment) (arena : Arena)
  | arena (arena : Arena)
  /-- whether the automaton is one without states -/
  | assembled (empty : Bool)
  | merged (count : Nat)
  | nfa (n : Nfa)
  | dfa (d : Dfa)
  | text (s : String)
  /-- by the automaton itself, and by its composites -/
  | found (nfa dfa : Bool)
  /-- no automaton was assembled yet -/
  | missing

/-- States that are allocated and connected by hand, and an automaton that was assembled from a copy
of them. Whether there is a state or a guard of an id is not asked before it is looked up, so an
edge may lead nowhere. -/
structure Workbench where
  arena : Arena
  guards : Array Guard
  nfa : Option Nfa

namespace Workbench

def empty (guards : Array Guard) : Workbench := ⟨.empty, guards, none⟩

/-- Answers from the automaton assembled last. -/
def ask (b : Workbench) (answer : Nfa → Except Fault BenchAnswer) :
    Except Fault (BenchAnswer × Workbench) := do
  match b.nfa with
  | some n => return (← answer n, b)
  | none => return (.missing, b)

def perform (b : Workbench) : BenchOp → Except Fault (BenchAnswer × Workbench)
  | .alloc guard =>
    let (id, arena) := b.arena.alloc (guard.map word)
    .ok (.id id, { b with arena })
  | .connect source target => do
    let arena ← b.arena.connect (word source) (word target)
    return (.edges (← arena.edges (word source)), { b with arena })
  | .copy start stop => do
    let (copy, arena) ← b.arena.cloneFragment ⟨word start, word stop⟩
    return (.copied copy arena, { b with arena })
  | .arena => .ok (.arena b.arena, b)
  | .assemble start accept =>
    let n : Nfa := ⟨b.arena, b.guards, word start, word accept⟩
    .ok (.assembled (n.size == 0), { b with nfa := some n })
  | .collapse => do
    match b.nfa with
    | some n =>
      let (merged, n) ← n.collapse
      return (.merged merged, { b with nfa := some n })
    | none => return (.missing, b)
  | .nfa => b.ask fun n => .ok (.nfa n)
  | .dfa => b.ask fun n => do return .dfa (← Dfa.ofNfa n)
  | .nfaDot => b.ask fun n => do return .text (← n.toDot)
  | .dfaDot => b.ask fun n => do return .text (← (← Dfa.ofNfa n).toDot)
  | .isMatch text => b.ask fun n => do
    let d ← Dfa.ofNfa n
    let chars := text.toList.toArray
    return .found (← n.isMatch chars) (← d.isMatch chars)

end Workbench

end WholeMatch
