import WholeMatch.Backtrack.Search
import WholeMatch.Pattern.Parse
import WholeMatch.Nfa.OfPattern
import WholeMatch.Nfa.Simulate
import WholeMatch.Dfa.Subset
import WholeMatch.Dfa.Simulate

namespace WholeMatch

/-- Which matcher decides. -/
inductive Strategy where
  /-- walks the tree; exponential at worst -/
  | backtrack
  | nfa
  | dfa
  deriving DecidableEq, Repr

def Strategy.standard : Strategy := .dfa

/-- What is logged. -/
inductive Event where
  | builtNfa (pattern : String) (states reachable : Nat)
  | builtDfa (pattern : String) (states : Nat)
  | cacheHit (pattern : String)
  deriving DecidableEq, Repr

/-- A character of a pattern in the log: quotes, backslashes and what cannot be printed are escaped.
Outside of Latin-1 everything is taken to be printable. -/
def escapedChar (c : Char) : List Char :=
  match c with
  | '\x00' => ['\\', '0']
  | '\t' => ['\\', 't']
  | '\n' => ['\\', 'n']
  | '\r' => ['\\', 'r']
  | '"' => ['\\', '"']
  | '\\' => ['\\', '\\']
  | c =>
    if c.toNat < 0x20 ∨ 0x7f ≤ c.toNat ∧ c.toNat < 0xa0 ∨ c.toNat = 0xad then
      "\\u\x7b".toList ++ Nat.toDigits 16 c.toNat ++ ['\x7d']
    else [c]

/-- A pattern between quotes. -/
def quoted (pattern : String) : String :=
  String.ofList ('"' :: pattern.toList.flatMap escapedChar ++ ['"'])

/-- The line an event leaves in the log. -/
def Event.line : Event → String
  | builtNfa pattern states reachable =>
    s!"DEBUG built NFA for {quoted pattern}: {states} states, {reachable} reachable"
  | builtDfa pattern states => s!"DEBUG built DFA for {quoted pattern}: {states} states"
  | cacheHit pattern => s!"TRACE regex cache hit for {quoted pattern}"

/-- A compiled pattern, with the automata built so far. -/
structure Regex where
  pattern : Pattern
  strategy : Strategy
  nfa : Option Nfa
  dfa : Option Dfa

/-- What an operation gives: its answer, the regex afterwards, and what it logged. -/
structure Used (α : Type) where
  answer : α
  regex : Regex
  log : List Event

namespace Regex

/-- The text the pattern was read from. -/
def text (r : Regex) : String := r.pattern.label

/-- The automaton with free moves, built if need be. -/
def useNfa (r : Regex) : Except Fault (Used Nfa) :=
  match r.nfa with
  | some nfa => .ok ⟨nfa, r, []⟩
  | none => do
    let nfa ← Nfa.ofPattern r.pattern
    let reachable ← nfa.reachable
    return ⟨nfa, { r with nfa := some nfa }, [.builtNfa r.text nfa.size reachable.length]⟩

/-- The automaton of composites, built if need be, from the other one. -/
def useDfa (r : Regex) : Except Fault (Used Dfa) :=
  match r.dfa with
  | some dfa => .ok ⟨dfa, r, []⟩
  | none => do
    let nfa ← r.useNfa
    let dfa ← Dfa.ofNfa nfa.answer
    return ⟨dfa, { nfa.regex with dfa := some dfa }, nfa.log ++ [.builtDfa r.text dfa.size]⟩

/-- Whether the text as a whole matches, by a matcher of choice. -/
def isMatchWith (r : Regex) (text : String) (strategy : Strategy) : Except Fault (Used Bool) := do
  let chars := text.toList.toArray
  match strategy with
  | .backtrack => return ⟨← r.pattern.isMatch chars, r, []⟩
  | .nfa =>
    let nfa ← r.useNfa
    return ⟨← nfa.answer.isMatch chars, nfa.regex, nfa.log⟩
  | .dfa =>
    let dfa ← r.useDfa
    return ⟨← dfa.answer.isMatch chars, dfa.regex, dfa.log⟩

/-- Whether the text as a whole matches, by the matcher chosen for the regex. -/
def isMatch (r : Regex) (text : String) : Except Fault (Used Bool) := r.isMatchWith text r.strategy

/-- Builds what the matcher chosen for the regex needs. -/
def prepare (r : Regex) : Except Fault (Regex × List Event) := do
  match r.strategy with
  | .backtrack => return (r, [])
  | .nfa => let nfa ← r.useNfa; return (nfa.regex, nfa.log)
  | .dfa => let dfa ← r.useDfa; return (dfa.regex, dfa.log)

/-- Compiles a pattern for a matcher. -/
def compile (pattern : String) (strategy : Strategy) : Except Failure (Regex × List Event) := do
  let tree ← Pattern.parse pattern
  (prepare ⟨tree, strategy, none, none⟩).mapError .fault

end Regex

/-- How a pattern is going to be compiled. -/
structure RegexBuilder where
  pattern : String
  strategy : Strategy

namespace RegexBuilder

def ofPattern (pattern : String) : RegexBuilder := ⟨pattern, .standard⟩

def choose (b : RegexBuilder) (strategy : Strategy) : RegexBuilder := { b with strategy }

def build (b : RegexBuilder) : Except Failure (Regex × List Event) :=
  Regex.compile b.pattern b.strategy

end RegexBuilder

end WholeMatch
