import WholeMatch.Fault

/-! A set of indices below a capacity, emptied in constant time. Its members stand in `dense` in the
order they came; `sparse` says where. Emptying the set resets its size and nothing else, so both
tables keep stale entries: an index is a member when the two tables agree on it below the size. -/

namespace WholeMatch

structure IndexSet where
  size : Nat
  dense : Array Nat
  sparse : Array Nat
  size_le : size ≤ dense.size
  same_size : sparse.size = dense.size

namespace IndexSet

/-- The empty set of indices below `capacity`. -/
def empty (capacity : Nat) : IndexSet where
  size := 0
  dense := Array.replicate capacity 0
  sparse := Array.replicate capacity 0
  size_le := Nat.zero_le _
  same_size := by simp

def capacity (s : IndexSet) : Nat := s.dense.size

def isEmpty (s : IndexSet) : Bool := s.size == 0

/-- The members, in the order they came. -/
def toList (s : IndexSet) : List Nat := (s.dense.extract 0 s.size).toList

def contains (s : IndexSet) (i : Nat) : Except Fault Bool := do
  let slot ← lookup s.sparse i
  return decide (slot < s.size) && s.dense[slot]? == some i

/-- Writes an absent index behind the members. -/
def append (s : IndexSet) (i : Nat) : Except Fault IndexSet :=
  match s with
  | ⟨size, dense, sparse, _, same⟩ =>
    if h : size < dense.size then
      if hi : i < sparse.size then
        .ok ⟨size + 1, dense.set size i h, sparse.set i size hi, by rw [Array.size_set]; exact h,
          by rw [Array.size_set, Array.size_set, same]⟩
      else .error .index
    else .error (.overflow size dense.size)

/-- Adds an index; true when it was absent. -/
def insert (s : IndexSet) (i : Nat) : Except Fault (Bool × IndexSet) := do
  if ← s.contains i then return (false, s) else return (true, ← s.append i)

def clear (s : IndexSet) : IndexSet :=
  match s with
  | ⟨_, dense, sparse, _, same⟩ => ⟨0, dense, sparse, Nat.zero_le _, same⟩

/-- How many further members there is room for. -/
def room (s : IndexSet) : Nat := s.capacity - s.size

theorem append_eq_ok {s t : IndexSet} {i : Nat} (h : s.append i = .ok t) :
    t.capacity = s.capacity ∧ t.size = s.size + 1 ∧ t.room < s.room := by
  obtain ⟨size, dense, sparse, _, _⟩ := s
  simp only [append] at h
  split at h
  · split at h
    · cases h
      simp [capacity, room]
      omega
    · cases h
  · cases h

theorem insert_eq_ok {s t : IndexSet} {i : Nat} {fresh : Bool}
    (h : s.insert i = .ok (fresh, t)) :
    fresh = false ∧ t = s ∨ fresh = true ∧ s.append i = .ok t := by
  obtain ⟨found, _, h⟩ := bind_eq_ok.mp h
  cases found
  · obtain ⟨_, ha, h⟩ := bind_eq_ok.mp h
    cases h
    exact .inr ⟨rfl, ha⟩
  · cases h
    exact .inl ⟨rfl, rfl⟩

theorem eq_of_insert {s t : IndexSet} {i : Nat} (h : s.insert i = .ok (false, t)) : t = s := by
  simpa using insert_eq_ok h

theorem room_of_insert {s t : IndexSet} {i : Nat} (h : s.insert i = .ok (true, t)) :
    t.room < s.room := by
  have ha : s.append i = .ok t := by simpa using insert_eq_ok h
  exact (append_eq_ok ha).2.2

theorem capacity_of_insert {s t : IndexSet} {i : Nat} {fresh : Bool}
    (h : s.insert i = .ok (fresh, t)) : t.capacity = s.capacity := by
  rcases insert_eq_ok h with ⟨_, rfl⟩ | ⟨_, ha⟩
  · rfl
  · exact (append_eq_ok ha).1

end IndexSet

/-- The current frontier of a simulation, and the next one. -/
structure Frontiers where
  current : IndexSet
  next : IndexSet

namespace Frontiers

def empty (capacity : Nat) : Frontiers := ⟨.empty capacity, .empty capacity⟩

/-- Makes the next frontier the current one, and empties the other to be the next. -/
def advance (f : Frontiers) : Frontiers := ⟨f.next, f.current.clear⟩

end Frontiers

end WholeMatch
