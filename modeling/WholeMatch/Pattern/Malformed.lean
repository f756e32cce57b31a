import WholeMatch.Fault

namespace WholeMatch

/-- The largest count a repetition may name. -/
def repeatLimit : Nat := 1000

/-- The largest number of automaton states a pattern may expand into. -/
def expansionLimit : Nat := 1000000

/-- What is wrong with a pattern. -/
inductive Cause where
  | expectedAtom
  | emptyAlternative
  | unmatchedClose
  | nothingToRepeat
  | unterminatedGroup
  | unterminatedClass
  | unterminatedRepetition
  | strayInRepetition (c : Char)
  | expectedCount
  | countTooLarge
  | boundsReversed (min max : Nat)
  | trailingEscape
  | unknownEscape (c : Char)
  | emptyClass
  | badRange (lo hi : Char)
  | tooManyStates
  deriving DecidableEq, Repr

def Cause.message : Cause → String
  | .expectedAtom => "expected an atom"
  | .emptyAlternative => "empty alternative"
  | .unmatchedClose => "unmatched ')'"
  | .nothingToRepeat => "nothing to repeat"
  | .unterminatedGroup => "unterminated group"
  | .unterminatedClass => "unterminated character class"
  | .unterminatedRepetition => "unterminated repetition"
  | .strayInRepetition c => s!"unexpected '{c}' in repetition"
  | .expectedCount => "expected repetition count"
  | .countTooLarge => s!"repetition count exceeds {repeatLimit}"
  | .boundsReversed min max => s!"repetition minimum {min} exceeds maximum {max}"
  | .trailingEscape => "trailing escape"
  | .unknownEscape c => s!"invalid escape sequence '\\{c}'"
  | .emptyClass => "empty character class"
  | .badRange lo hi => s!"invalid range '{lo}-{hi}'"
  | .tooManyStates => s!"pattern expands past {expansionLimit} automaton states"

/-- A text that is no pattern. -/
structure Malformed where
  cause : Cause
  offset : Nat
  deriving DecidableEq, Repr

def Malformed.message (m : Malformed) : String :=
  s!"invalid pattern: {m.cause.message} at offset {m.offset}"

/-- Why a pattern could not be read or compiled: the text is at fault, or an operation was refused
on the way. -/
inductive Failure where
  | malformed (m : Malformed)
  | fault (f : Fault)
  deriving DecidableEq, Repr

end WholeMatch
