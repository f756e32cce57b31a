import WholeMatch.Regex.Basic
import WholeMatch.Dot

namespace WholeMatch

/-- What a regex can be asked. -/
inductive Request where
  | isMatch (text : String)
  | isMatchWith (text : String) (strategy : Strategy)
  | text
  | strategy
  | nfaSize
  | dfaSize
  /-- an automaton as graph text, or into a buffer of so many bytes -/
  | nfaDot (limit : Option Nat)
  | dfaDot (limit : Option Nat)
  deriving DecidableEq, Repr

inductive Answer where
  | flag (b : Bool)
  | text (s : String)
  | strategy (s : Strategy)
  | size (n : Nat)
  /-- written, with so many bytes of the buffer left over -/
  | written (free : Nat)
  /-- the buffer was too small -/
  | full
  deriving DecidableEq, Repr

/-- Hands a text over, or writes it into a buffer in UTF-8. -/
def Answer.ofText (limit : Option Nat) (s : String) : Answer :=
  match limit with
  | none => .text s
  | some limit => if s.utf8ByteSize ≤ limit then .written (limit - s.utf8ByteSize) else .full

namespace Regex

def perform (r : Regex) : Request → Except Fault (Used Answer)
  | .isMatch text => do
    let found ← r.isMatch text
    return ⟨.flag found.answer, found.regex, found.log⟩
  | .isMatchWith text strategy => do
    let found ← r.isMatchWith text strategy
    return ⟨.flag found.answer, found.regex, found.log⟩
  | .text => .ok ⟨.text r.text, r, []⟩
  | .strategy => .ok ⟨.strategy r.strategy, r, []⟩
  | .nfaSize => do
    let nfa ← r.useNfa
    return ⟨.size nfa.answer.size, nfa.regex, nfa.log⟩
  | .dfaSize => do
    let dfa ← r.useDfa
    return ⟨.size dfa.answer.size, dfa.regex, dfa.log⟩
  | .nfaDot limit => do
    let nfa ← r.useNfa
    return ⟨.ofText limit (← nfa.answer.toDot), nfa.regex, nfa.log⟩
  | .dfaDot limit => do
    let dfa ← r.useDfa
    return ⟨.ofText limit (← dfa.answer.toDot), dfa.regex, dfa.log⟩

/-- Performs the requests in turn, and gives what each answered and logged. -/
def performAll (r : Regex) : List Request → Except Fault (List (Answer × List Event) × Regex)
  | [] => .ok ([], r)
  | request :: requests => do
    let used ← r.perform request
    let (rest, r) ← used.regex.performAll requests
    return ((used.answer, used.log) :: rest, r)

end Regex

end WholeMatch
