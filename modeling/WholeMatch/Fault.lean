namespace WholeMatch

/-- Why an operation was refused. -/
inductive Fault where
  /-- stepping back `n` places from `pos` would leave the window -/
  | rollback (n pos : Nat)
  /-- stepping forward `n` places from `pos` would leave the window -/
  | overrun (n pos : Nat)
  /-- `pos` lies outside the window from `start` to `stop` -/
  | position (pos start stop : Nat)
  /-- the window from `lo` to `hi` is not inside the one from `start` to `stop` -/
  | window (lo hi start stop : Nat)
  /-- a table has no entry of that index -/
  | index
  /-- an index set has no room for a further member -/
  | overflow (size capacity : Nat)
  /-- one more repetition, and their count would be no word -/
  | count
  /-- a loop went on for longer than any loop that ends -/
  | endless
  deriving DecidableEq, Repr

/-- The wording of a fault, for those that have one. -/
def Fault.message : Fault → Option String
  | .rollback n pos => some s!"unbalanced rollback of {n} at position {pos}"
  | .overrun n pos => some s!"advance of {n} past end at position {pos}"
  | .position pos start stop => some s!"cursor position {pos} outside {start}..={stop}"
  | .window lo hi start stop => some s!"cursor window {lo}..{hi} outside {start}..{stop}"
  | .overflow size capacity => some s!"sparse set overflow: len={size}, capacity={capacity}"
  | .count => some "attempt to add with overflow"
  | .index | .endless => none

/-- The entry of a table at an index. -/
def lookup {α : Type} (table : Array α) (i : Nat) : Except Fault α :=
  match table[i]? with
  | some a => .ok a
  | none => .error .index

/-- A table with the entry at an index replaced. -/
def store {α : Type} (table : Array α) (i : Nat) (a : α) : Except Fault (Array α) :=
  if h : i < table.size then .ok (table.set i a h) else .error .index

theorem bind_eq_ok {ε α β : Type} {x : Except ε α} {f : α → Except ε β} {b : β} :
    (x >>= f) = .ok b ↔ ∃ a, x = .ok a ∧ f a = .ok b := by
  cases x <;> simp [bind, Except.bind]

theorem map_eq_ok {ε α β : Type} {x : Except ε α} {f : α → β} {b : β} :
    x.map f = .ok b ↔ ∃ a, x = .ok a ∧ f a = b := by
  cases x <;> simp [Except.map]

theorem ok_bind {ε α β : Type} (a : α) (f : α → Except ε β) : (Except.ok a >>= f) = f a := rfl

theorem lookup_of_lt {α : Type} {table : Array α} {i : Nat} (h : i < table.size) :
    lookup table i = .ok table[i] := by
  simp [lookup, h]

theorem store_of_lt {α : Type} {table : Array α} {i : Nat} (h : i < table.size) (a : α) :
    store table i a = .ok (table.set i a h) := by
  simp [store, h]

end WholeMatch
