import Mathlib
import WholeMatch.Proofs.Building
import WholeMatch.Proofs.Drawing
import WholeMatch.Proofs.Ordering

/-! The text of a drawing tells what was drawn: one reader finds it there, whatever the labels are.
The two halves of this meet at `Dot.Statement`. A text is made of the lines of statements, and each
line is read on its own; the statements made of an automaton tell what there is to draw of it. -/

namespace WholeMatch

namespace Dot

/-- How a character of a label stands between the quotes. -/
def escapeChar : Char → List Char
  | '\\' => ['\\', '\\']
  | '"' => ['\\', '"']
  | '\n' => ['\\', 'n']
  | c => [c]

/-- Reads a label up to the quote that ends it, and gives what stands behind the quote. -/
def readLabel : List Char → Option (List Char × List Char)
  | [] | ['\\'] => none
  | '"' :: rest => some ([], rest)
  | '\\' :: c :: rest => do
    let (label, rest) ← readLabel rest
    return ((if c = 'n' then '\n' else c) :: label, rest)
  | c :: rest => do
    let (label, rest) ← readLabel rest
    return (c :: label, rest)

/-- What a line of a drawing says. -/
inductive Statement where
  | box (id : Nat)
  | circle (id : Nat)
  | edge (source target : Nat) (label : String)
  deriving DecidableEq, Repr

/-- A statement about what is named by its number. -/
def Statement.text (name : Nat → String) : Statement → String
  | .box id => Dot.box (name id)
  | .circle id => doubleCircle (name id)
  | .edge source target label => Dot.edge (name source) (name target) label

/-- Reads a name, which is a letter before a number. -/
def readName : List Char → Option (Nat × List Char)
  | [] => none
  | _ :: rest => some (Nat.ofDigitChars 10 (rest.takeWhile (·.isDigit)) 0,
      rest.dropWhile (·.isDigit))

/-- Reads a line, if it is a statement. -/
def Statement.read (line : List Char) : Option Statement := do
  let rest ← line.dropPrefix? ['\t']
  let (id, rest) ← readName rest
  if rest = " [shape=box];".toList then return .box id
  else if rest = " [shape=doublecircle];".toList then return .circle id
  else
    let rest ← rest.dropPrefix? " -> ".toList
    let (target, rest) ← readName rest
    let rest ← rest.dropPrefix? " [label=\"".toList
    let (label, rest) ← readLabel rest
    if rest = "];".toList then return .edge id target (String.ofList label) else none

/-- Reads the statements among the lines. -/
def readLines (text : List Char) : List Statement :=
  (text.splitOn '\n').filterMap Statement.read

/-- What is told by statements: what is boxed, what is circled, and the edges with their labels. -/
structure Drawing where
  boxes : List Nat
  circles : List Nat
  edges : List (Nat × Nat × String)
  deriving DecidableEq, Repr

def Drawing.ofStatements (sts : List Statement) : Drawing where
  boxes := sts.filterMap fun | .box id => some id | _ => none
  circles := sts.filterMap fun | .circle id => some id | _ => none
  edges := sts.filterMap fun | .edge source target label => some (source, target, label) | _ => none

/-- **The reader** of a drawing. -/
def read (text : String) : Drawing := .ofStatements (readLines text.toList)

section
variable {name : Nat → String} {letter : Char}

/-- The characters of a name. -/
def named (letter : Char) (id : Nat) : List Char := letter :: Nat.toDigits 10 id

/-- The line of a statement, without its end. -/
def Statement.line (letter : Char) : Statement → List Char
  | .box id => '\t' :: (named letter id ++ " [shape=box];".toList)
  | .circle id => '\t' :: (named letter id ++ " [shape=doublecircle];".toList)
  | .edge source target label =>
    '\t' :: (named letter source ++ (" -> ".toList ++ (named letter target ++
      (" [label=\"".toList ++ (label.toList.flatMap escapeChar ++ '"' :: "];".toList)))))

end

end Dot

namespace Nfa

/-- What the edges that enter a state are labelled with. -/
def labelAt (n : Nfa) (id : Nat) : String :=
  match n.graph.guard id with
  | some guard => guard.label
  | none => "ε"

/-- The edges of a state with their labels. -/
def labelledAt (n : Nfa) (id : Nat) : List (Nat × Nat × String) :=
  (n.graph.targets id).map fun target => (id, target, n.labelAt target)

/-- What there is to draw of an automaton whose states are listed. -/
def drawing (n : Nfa) (order : List Nat) : Dot.Drawing where
  boxes := [n.start]
  circles := [n.accept]
  edges := order.flatMap n.labelledAt

variable {n : Nfa}

end Nfa

namespace Dfa

/-- A composite is one that accepts. -/
def acceptsAt (d : Dfa) (id : Nat) : Bool := (d.composites[id]?.map (·.accepting)).getD false

/-- What the edges that enter a composite are labelled with. -/
def labelAt (d : Dfa) (id : Nat) : String :=
  match d.guardAt id with
  | some guard => guard.label
  | none => if d.acceptsAt id then "accept" else "ε"

/-- The edges of a composite with their labels. -/
def labelledAt (d : Dfa) (id : Nat) : List (Nat × Nat × String) :=
  (d.edgesOf id).map fun target => (id, target, d.labelAt target)

/-- What there is to draw of composites. -/
def drawing (d : Dfa) : Dot.Drawing where
  boxes := [root]
  circles := (List.range d.size).filter d.acceptsAt
  edges := (List.range d.size).flatMap d.labelledAt

variable {d : Dfa}

end Dfa

end WholeMatch
