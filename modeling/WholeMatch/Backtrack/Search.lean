import WholeMatch.Backtrack.Halting

namespace WholeMatch

namespace Backtrack

/-- A configuration from which the machine halts. -/
abbrev Halting := {c : Config // Halts c}

theorem wellFounded_steps : WellFounded fun d c : Halting => Steps c.1 d.1 := by
  refine ⟨fun ⟨c, hc⟩ => ?_⟩
  induction hc with
  | intro c _ ih => exact ⟨_, fun d hd => ih d.1 hd⟩

instance : WellFoundedRelation Halting := ⟨_, wellFounded_steps⟩

/-- Whether the machine finds a match from a configuration. -/
def run (c : Halting) : Except Fault Bool :=
  match h : step c.1 with
  | .error f => .error f
  | .ok .found => .ok true
  | .ok .lost => .ok false
  | .ok (.next d) => run ⟨d, c.2.inv h⟩
termination_by c
decreasing_by exact h

end Backtrack

/-- Whether a path through the pattern reads the whole text. -/
def Pattern.isMatch (p : Pattern) (text : Array Char) : Except Fault Bool :=
  Backtrack.run ⟨_, Backtrack.halts_initial p text⟩

end WholeMatch
