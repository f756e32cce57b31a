import WholeMatch.Nfa.Collapse
import WholeMatch.Pattern.Tree

namespace WholeMatch

/-- An automaton under construction. -/
structure Draft where
  arena : Arena
  guards : Array Guard

namespace Arena

/-- The next copy of a fragment: the fragment itself unless it is taken already, else a clone. -/
def copy (a : Arena) (template : Fragment) (taken : Bool) : Except Fault (Fragment × Arena) :=
  if taken then a.cloneFragment template else .ok (template, a)

/-- Puts `n` further copies in a row behind `last`, the last copy so far, or behind `start` when
there is none yet. -/
def mandatory (template : Fragment) (start : Nat) : (n : Nat) → (last : Option Fragment) → Arena →
    Except Fault (Option Fragment × Arena)
  | 0, last, a => .ok (last, a)
  | n + 1, last, a => do
    let (next, a) ← a.copy template last.isSome
    let a ← a.connect ((last.map (·.stop)).getD start) next.start
    mandatory template start n (some next) a

/-- Puts `n` further copies in a row behind `current`, each with a way to the exit. -/
def optional (template : Fragment) (exit : Nat) : (n current : Nat) → (taken : Bool) → Arena →
    Except Fault Arena
  | 0, _, _, a => .ok a
  | n + 1, current, taken, a => do
    let (next, a) ← a.copy template taken
    let a ← a.connect current next.start
    let a ← a.connect next.stop exit
    optional template exit n next.stop true a

/-- Makes the last copy loop, or one further copy that may be left out when there is none. -/
def looping (template : Fragment) (start exit : Nat) (last : Option Fragment) (a : Arena) :
    Except Fault Arena := do
  match last with
  | some last =>
    let a ← a.connect last.stop last.start
    a.connect last.stop exit
  | none =>
    let a ← a.connect start template.start
    let a ← a.connect start exit
    let a ← a.connect template.stop template.start
    a.connect template.stop exit

/-- Writes out the repetition of a fragment that nothing is tied to yet: `min` copies in a row, and
then one that loops, or as many as `max` leaves, each of which may be the last. The first copy is
the fragment itself, and the later ones are clones of it. -/
def repeated (a : Arena) (template : Fragment) (rep : Repeat) :
    Except Fault (Fragment × Arena) := do
  let (start, a) := a.alloc none
  let (exit, a) := a.alloc none
  let (last, a) ← mandatory template start rep.min none a
  match rep.max with
  | none => return (⟨start, exit⟩, ← a.looping template start exit last)
  | some max =>
    let current := (last.map (·.stop)).getD start
    let a ← a.connect current exit
    return (⟨start, exit⟩, ← optional template exit (max - rep.min) current last.isSome a)

end Arena

namespace Draft

def empty : Draft := ⟨.empty, #[]⟩

/-- The fragment of a guard: two states, the first of which carries it. -/
def guarded (d : Draft) (g : Guard) : Except Fault (Fragment × Draft) :=
  match d with
  | ⟨arena, guards⟩ => do
    let (start, arena) := arena.alloc (some (word guards.size))
    let (stop, arena) := arena.alloc none
    return (⟨start, stop⟩, ⟨← arena.connect start stop, guards.push g⟩)

def connect (d : Draft) (source target : Nat) : Except Fault Draft :=
  match d with
  | ⟨arena, guards⟩ => do return ⟨← arena.connect source target, guards⟩

def repeated (d : Draft) (template : Fragment) (rep : Repeat) : Except Fault (Fragment × Draft) :=
  match d with
  | ⟨arena, guards⟩ => do
    let (f, arena) ← arena.repeated template rep
    return (f, ⟨arena, guards⟩)

/-- A fragment that is crossed without reading. -/
def blank (d : Draft) : Except Fault (Fragment × Draft) :=
  match d with
  | ⟨arena, guards⟩ => do
    let (start, arena) := arena.alloc none
    let (stop, arena) := arena.alloc none
    return (⟨start, stop⟩, ⟨← arena.connect start stop, guards⟩)

/-- The common entry and exit of branches that are still to come. -/
def fork (d : Draft) : Fragment × Draft :=
  match d with
  | ⟨arena, guards⟩ =>
    let (start, arena) := arena.alloc none
    let (stop, arena) := arena.alloc none
    (⟨start, stop⟩, ⟨arena, guards⟩)

/-- Puts a fragment between the entry and the exit of another. -/
def tie (d : Draft) (outer inner : Fragment) : Except Fault Draft := do
  let d ← d.connect outer.start inner.start
  d.connect inner.stop outer.stop

mutual

/-- The fragment of a term. -/
def term : Term → Draft → Except Fault (Fragment × Draft)
  | .guard g rep _, d => do
    let (f, d) ← d.guarded g
    d.repeated f rep
  | .group bs _ rep _, d => do
    let (f, d) ← branches bs d
    d.repeated f rep

/-- The fragment of a branch. -/
def branch : List Term → Draft → Except Fault (Fragment × Draft)
  | [], d => d.blank
  | t :: ts, d => do
    let (f, d) ← term t d
    following ts f d

/-- Puts terms behind a fragment. -/
def following : List Term → Fragment → Draft → Except Fault (Fragment × Draft)
  | [], f, d => .ok (f, d)
  | t :: ts, f, d => do
    let (next, d) ← term t d
    let d ← d.connect f.stop next.start
    following ts ⟨f.start, next.stop⟩ d

/-- The fragment of a list of branches. A single branch stands for itself. -/
def branches : List (List Term) → Draft → Except Fault (Fragment × Draft)
  | [], d => .ok d.fork
  | b :: bs, d => do
    if bs.isEmpty then branch b d
    else
      let (outer, d) := d.fork
      let (inner, d) ← branch b d
      let d ← d.tie outer inner
      return (outer, ← alternatives bs outer d)

/-- Puts branches between the entry and the exit of a fragment. -/
def alternatives : List (List Term) → Fragment → Draft → Except Fault Draft
  | [], _, d => .ok d
  | b :: bs, outer, d => do
    let (inner, d) ← branch b d
    let d ← d.tie outer inner
    alternatives bs outer d

end

end Draft

/-- The automaton of a pattern before its free states are merged. -/
def Nfa.draft (p : Pattern) : Except Fault Nfa := do
  let (f, d) ← Draft.branches p.branches .empty
  return ⟨d.arena, d.guards, f.start, f.stop⟩

/-- The automaton of a pattern. -/
def Nfa.ofPattern (p : Pattern) : Except Fault Nfa := do
  return (← (← Nfa.draft p).collapse).2

end WholeMatch
