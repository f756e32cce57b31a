import Mathlib.Order.WellFounded
import WholeMatch.Proofs.Backtracking
import WholeMatch.Proofs.Overflowing

namespace WholeMatch

namespace Backtrack

variable {c d : Config}

end Backtrack

end WholeMatch
