import WholeMatch.Dfa.Basic

/-! The simulation keeps the set of composites a run can be in. At each place they are joined by the
assertion composites their edges lead to whose assertion holds there; then the character is tested
against the guard of every consuming composite that comes next. At the end a composite accepts
that has the accepting state among its members, or an edge to such a composite without a guard. -/

namespace WholeMatch

namespace Dfa

/-- Adds the targets that are entered by an assertion at the place. -/
def addAsserted (d : Dfa) (place : Cursor) : List Nat → IndexSet → Except Fault IndexSet
  | [], current => .ok current
  | target :: targets, current => do
    match ← d.guardOf target with
    | none => d.addAsserted place targets current
    | some guard =>
      if !guard.zeroWidth then d.addAsserted place targets current
      else if ← current.contains target then d.addAsserted place targets current
      else if (← guard.attempt place).1 then
        d.addAsserted place targets (← current.insert target).2
      else d.addAsserted place targets current

theorem capacity_of_addAsserted {d : Dfa} {place : Cursor} {targets : List Nat}
    {current after : IndexSet} (h : d.addAsserted place targets current = .ok after) :
    after.capacity = current.capacity := by
  induction targets generalizing current with
  | nil => cases h; rfl
  | cons target targets ih =>
    obtain ⟨guard, _, h⟩ := bind_eq_ok.mp h
    split at h
    · exact ih h
    · split at h
      · exact ih h
      · obtain ⟨known, _, h⟩ := bind_eq_ok.mp h
        split at h
        · exact ih h
        · obtain ⟨tried, _, h⟩ := bind_eq_ok.mp h
          split at h
          · obtain ⟨_, hi, h⟩ := bind_eq_ok.mp h
            rw [ih h, IndexSet.capacity_of_insert hi]
          · exact ih h

/-- Adds what is entered by assertions at the place from every member from the one numbered `i`
on, the members this adds among them. -/
def closeAsserted (d : Dfa) (place : Cursor) (i : Nat) (current : IndexSet) :
    Except Fault IndexSet :=
  if h : i < current.size then
    have inside : i < current.dense.size := Nat.lt_of_lt_of_le h current.size_le
    match d.composite current.dense[i] with
    | .error f => .error f
    | .ok c =>
      match ha : d.addAsserted place c.edges current with
      | .error f => .error f
      | .ok after =>
        have : after.dense.size = current.dense.size := capacity_of_addAsserted ha
        d.closeAsserted place (i + 1) after
  else .ok current
termination_by current.dense.size - i

/-- Adds the targets whose guard accepts the character at the place. Each is tried once. -/
def addConsuming (d : Dfa) (place : Cursor) : List Nat → (tried next : IndexSet) →
    Except Fault (IndexSet × IndexSet)
  | [], tried, next => .ok (tried, next)
  | target :: targets, tried, next => do
    match ← d.guardOf target with
    | none => d.addConsuming place targets tried next
    | some guard =>
      if guard.zeroWidth then d.addConsuming place targets tried next
      else
        match ← tried.insert target with
        | (false, tried) => d.addConsuming place targets tried next
        | (true, tried) =>
          if (← guard.attempt place).1 then
            d.addConsuming place targets tried (← next.insert target).2
          else d.addConsuming place targets tried next

/-- Steps from each of the composites. -/
def consume (d : Dfa) (place : Cursor) : List Nat → (tried next : IndexSet) →
    Except Fault (IndexSet × IndexSet)
  | [], tried, next => .ok (tried, next)
  | id :: ids, tried, next => do
    let (tried, next) ← d.addConsuming place (← d.composite id).edges tried next
    d.consume place ids tried next

/-- Whether one of the targets accepts and has no guard. -/
def leadsToAccept (d : Dfa) : List Nat → Except Fault Bool
  | [] => .ok false
  | target :: targets => do
    let c ← d.composite target
    if c.guard.isNone && c.accepting then return true else d.leadsToAccept targets

/-- Whether one of the composites accepts at the end of the text. -/
def accepts (d : Dfa) : List Nat → Except Fault Bool
  | [] => .ok false
  | id :: ids => do
    let c ← d.composite id
    if c.accepting then return true
    else if ← d.leadsToAccept c.edges then return true
    else d.accepts ids

/-- Steps the frontier over the places from `pos` on, of which `left` have a character. -/
def step (d : Dfa) (subject : Cursor) : (left pos : Nat) → Frontiers → IndexSet → Except Fault Bool
  | 0, pos, ⟨current, _⟩, _ => do
    let current ← d.closeAsserted (← subject.moveTo pos) 0 current
    d.accepts current.toList
  | left + 1, pos, ⟨current, next⟩, tried => do
    let place ← subject.moveTo pos
    let current ← d.closeAsserted place 0 current
    let (tried, next) ← d.consume place current.toList tried.clear next
    if next.isEmpty then return false
    else d.step subject left (pos + 1) (Frontiers.advance ⟨current, next⟩) tried

/-- Whether a run from the root to an accepting composite reads the whole text. -/
def isMatch (d : Dfa) (text : Array Char) : Except Fault Bool := do
  let (_, current) ← (IndexSet.empty d.size).insert root
  d.step (Cursor.ofText text) text.size 0 ⟨current, .empty d.size⟩ (.empty d.size)

end Dfa

end WholeMatch
