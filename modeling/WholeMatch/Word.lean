namespace WholeMatch

/-- How many words of 32 bits there are. The ids of states, guards and composites are such words,
and so are the bounds and the counts of repetitions. -/
def words : Nat := 0x100000000

/-- The word that a number is cut to: what is left of it in 32 bits. -/
def word (n : Nat) : Nat := n % words

theorem word_lt (n : Nat) : word n < words := Nat.mod_lt n (by decide)

/-- A number that fits is cut to itself. -/
theorem word_of_lt {n : Nat} (h : n < words) : word n = n := Nat.mod_eq_of_lt h

end WholeMatch
