import WholeMatch.Nfa.Basic
import WholeMatch.Dfa.Basic

namespace WholeMatch

namespace Dot

/-- A label as it stands between its quotes. -/
def escape (label : String) : String :=
  String.ofList (label.toList.flatMap fun c =>
    match c with
    | '\\' => ['\\', '\\']
    | '"' => ['\\', '"']
    | '\n' => ['\\', 'n']
    | c => [c])

def opening (name : String) : String := "digraph " ++ name ++ " \x7b\n\trankdir=LR;\n"

def closing : String := "\x7d\n"

def box (id : String) : String := "\t" ++ id ++ " [shape=box];\n"

def doubleCircle (id : String) : String := "\t" ++ id ++ " [shape=doublecircle];\n"

def edge (source target label : String) : String :=
  "\t" ++ source ++ " -> " ++ target ++ " [label=\"" ++ escape label ++ "\"];\n"

def freeLabel : String := "ε"

def acceptLabel : String := "accept"

end Dot

namespace Nfa

def stateName (id : Nat) : String := "s" ++ toString id

/-- The label of the edges that enter a state. -/
def edgeLabel (n : Nfa) (target : Nat) : Except Fault String := do
  match ← n.guardOf target with
  | some guard => return guard.label
  | none => return Dot.freeLabel

/-- The edges of the automaton with their labels: breadth first, and each state's in order. -/
def labelledEdges (n : Nfa) : Except Fault (List (Nat × Nat × String)) := do
  let edges ← (← n.reachable).mapM fun id => do
    (← n.edges id).mapM fun target => do return (id, target, ← n.edgeLabel target)
  return edges.flatten

/-- The reachable states, as graph text. -/
def toDot (n : Nfa) : Except Fault String := do
  let edges ← n.labelledEdges
  let lines := edges.map fun (id, target, label) => Dot.edge (stateName id) (stateName target) label
  return String.join ([Dot.opening "nfa", Dot.box (stateName n.start),
    Dot.doubleCircle (stateName n.accept)] ++ lines ++ [Dot.closing])

end Nfa

namespace Dfa

def stateName (id : Nat) : String := "d" ++ toString id

/-- The label of the edges that enter a composite. -/
def edgeLabel (d : Dfa) (target : Nat) : Except Fault String := do
  match ← d.guardOf target with
  | some guard => return guard.label
  | none => return if (← d.composite target).accepting then Dot.acceptLabel else Dot.freeLabel

/-- The statements about a composite: that it accepts, if it does, and then its edges. -/
def statements (d : Dfa) (id : Nat) (c : Composite) : Except Fault (List String) := do
  let edges ← c.edges.mapM fun target => do
    return Dot.edge (stateName id) (stateName target) (← d.edgeLabel target)
  return (if c.accepting then [Dot.doubleCircle (stateName id)] else []) ++ edges

/-- All composites, as graph text. -/
def toDot (d : Dfa) : Except Fault String := do
  let lines ← d.composites.toList.zipIdx.mapM fun (c, id) => d.statements id c
  return String.join ([Dot.opening "dfa", Dot.box (stateName root)] ++ lines.flatten ++
    [Dot.closing])

end Dfa

end WholeMatch
