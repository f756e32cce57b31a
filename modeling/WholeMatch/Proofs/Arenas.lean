import Mathlib.Tactic.ByContra
import WholeMatch.Proofs.Members

namespace WholeMatch

namespace Arena

/-- Where the edges of a state lead. -/
def targets (a : Arena) (i : Nat) : List Nat := (a.states[i]?.map (·.edges)).getD []

/-- The id of the guard of a state. -/
def mark (a : Arena) (i : Nat) : Option Nat := a.states[i]?.bind (·.guard)

/-- The arena with the edges of a state replaced. -/
def rewire (a : Arena) (i : Nat) (change : List Nat → List Nat) : Arena :=
  ⟨a.states.modify i fun s => ⟨s.guard, change s.edges⟩⟩

variable {a b c : Arena} {i s t : Nat} {change : List Nat → List Nat} {guard : Option Nat}

theorem state_of_lt (h : i < a.size) : a.state i = .ok ⟨a.mark i, a.targets i⟩ := by
  have room : i < a.states.size := h
  simp [state, lookup_of_lt room, mark, targets, room]

theorem edges_of_lt (h : i < a.size) : a.edges i = .ok (a.targets i) := by
  simp [edges, state_of_lt h, ok_bind, pure, Except.pure]

theorem targets_of_ge (h : a.size ≤ i) : a.targets i = [] := by
  simp [targets, Array.getElem?_eq_none h]

theorem mem_targets : t ∈ a.targets i ↔ ∃ s, a.states[i]? = some s ∧ t ∈ s.edges := by
  unfold targets
  cases a.states[i]? <;> simp

theorem lt_of_mem_targets (h : t ∈ a.targets s) : s < a.size := by
  by_contra beyond
  rw [targets_of_ge (by omega)] at h
  cases h

/-- While there are not too many states, the id of a new one is its place. -/
theorem alloc_of_lt (room : a.size < words) : a.alloc guard = (a.size, (a.alloc guard).2) :=
  Prod.ext (word_of_lt room) rfl

theorem size_alloc : (a.alloc guard).2.size = a.size + 1 := by
  simp [alloc, size]

theorem targets_alloc : (a.alloc guard).2.targets i = a.targets i := by
  unfold targets alloc
  rw [Array.getElem?_push]
  split
  · next last => simp [last]
  · rfl

theorem mark_alloc :
    (a.alloc guard).2.mark i = if i = a.size then guard else a.mark i := by
  unfold mark alloc size
  rw [Array.getElem?_push]
  split <;> rfl

theorem size_rewire : (a.rewire i change).size = a.size := by
  simp [rewire, size]

theorem targets_rewire (h : s < a.size) :
    (a.rewire s change).targets i = if i = s then change (a.targets s) else a.targets i := by
  have room : s < a.states.size := h
  unfold targets rewire
  rw [Array.getElem?_modify]
  by_cases same : i = s
  · subst same
    simp [room]
  · simp [same, Ne.symm same]

theorem mark_rewire : (a.rewire s change).mark i = a.mark i := by
  unfold mark rewire
  rw [Array.getElem?_modify]
  split
  · next same =>
    subst same
    cases a.states[s]? <;> rfl
  · rfl

theorem setEdges_of_lt (h : i < a.size) : a.setEdges i change = .ok (a.rewire i change) := by
  have room : i < a.states.size := h
  obtain ⟨states⟩ := a
  simp only [setEdges, rewire]
  rw [dif_pos room]
  congr 2
  apply Array.ext_getElem?
  intro j
  rw [Array.getElem?_set, Array.getElem?_modify]
  split
  · next same =>
    subst same
    simp only [Array.getElem?_eq_getElem room, Option.map_some]
  · rfl

/-- The arena with an edge added. -/
def withEdge (a : Arena) (s t : Nat) : Arena := a.rewire s (addNew · t)

theorem connect_of_lt (h : s < a.size) : a.connect s t = .ok (a.withEdge s t) := setEdges_of_lt h

theorem size_withEdge : (a.withEdge s t).size = a.size := size_rewire

theorem mark_withEdge : (a.withEdge s t).mark i = a.mark i := mark_rewire

theorem targets_withEdge (h : s < a.size) :
    (a.withEdge s t).targets i = if i = s then addNew (a.targets s) t else a.targets i :=
  targets_rewire h

/-- Edges lead to states, none is there twice, and marks are below the number of guards. -/
structure Sound (a : Arena) (guards : Nat) : Prop where
  edges : ∀ s, ∀ t ∈ a.targets s, t < a.size
  nodup : ∀ s, (a.targets s).Nodup
  marks : ∀ s g, a.mark s = some g → g < guards

/-- No edge leads from behind the base to a state in front of it. -/
def Above (a : Arena) (base : Nat) : Prop := ∀ s, base ≤ s → ∀ t ∈ a.targets s, base ≤ t

/-- States are added, and the others stay what they are. -/
structure Grows (a b : Arena) : Prop where
  size : a.size ≤ b.size
  targets : ∀ s, s < a.size → b.targets s = a.targets s
  mark : ∀ s, s < a.size → b.mark s = a.mark s

/-- No edge leads to the state. -/
def Unentered (a : Arena) (i : Nat) : Prop := ∀ s, i ∉ a.targets s

theorem Grows.refl (a : Arena) : a.Grows a :=
  ⟨Nat.le_refl _, fun _ _ => rfl, fun _ _ => rfl⟩

theorem Grows.trans (h : a.Grows b) (h' : b.Grows c) : a.Grows c where
  size := Nat.le_trans h.size h'.size
  targets s hs := (h'.targets s (Nat.lt_of_lt_of_le hs h.size)).trans (h.targets s hs)
  mark s hs := (h'.mark s (Nat.lt_of_lt_of_le hs h.size)).trans (h.mark s hs)

theorem grows_alloc : a.Grows (a.alloc guard).2 where
  size := by rw [size_alloc]; omega
  targets s _ := targets_alloc
  mark s hs := by rw [mark_alloc, if_neg (by omega)]

/-- An edge from a state that was added does nothing to the others. -/
theorem Grows.withEdge (h : a.Grows b) (hs : a.size ≤ s) (room : s < b.size) :
    a.Grows (b.withEdge s t) where
  size := by rw [size_withEdge]; exact h.size
  targets i hi := by
    rw [targets_withEdge room, if_neg (by omega)]
    exact h.targets i hi
  mark i hi := by
    rw [mark_withEdge]
    exact h.mark i hi

namespace Unentered

theorem alloc (h : a.Unentered i) : (a.alloc guard).2.Unentered i := fun s => by
  rw [targets_alloc]
  exact h s

theorem withEdge (h : a.Unentered i) (hs : s < a.size) (other : i ≠ t) :
    (a.withEdge s t).Unentered i := by
  intro u edge
  rw [targets_withEdge hs] at edge
  split at edge
  · rcases mem_addNew.mp edge with old | same
    · exact h s old
    · exact other same
  · exact h u edge

/-- New states that lead to new states only leave it so. -/
theorem grow (h : a.Unentered i) (grows : a.Grows b) (new : b.Above a.size) (old : i < a.size) :
    b.Unentered i := by
  intro s edge
  by_cases known : s < a.size
  · rw [grows.targets s known] at edge
    exact h s edge
  · exact absurd (new s (Nat.le_of_not_lt known) i edge) (Nat.not_le_of_lt old)

end Unentered

namespace Sound

variable {guards base : Nat}

/-- A state that is still to come is not entered. -/
theorem unentered (h : a.Sound guards) (beyond : a.size ≤ i) : a.Unentered i :=
  fun s edge => absurd (h.edges s i edge) (Nat.not_lt_of_le beyond)

theorem empty : Arena.empty.Sound 0 := by
  constructor <;> simp [Arena.empty, Arena.targets, Arena.mark]

theorem alloc (h : a.Sound guards) (guard : Option Nat) (hg : ∀ g, guard = some g → g < guards) :
    (a.alloc guard).2.Sound guards where
  edges s t ht := by
    rw [targets_alloc] at ht
    rw [size_alloc]
    have := h.edges s t ht
    omega
  nodup s := by rw [targets_alloc]; exact h.nodup s
  marks s g hm := by
    rw [mark_alloc] at hm
    split at hm
    · exact hg g hm
    · exact h.marks s g hm

theorem withEdge (h : a.Sound guards) (hs : s < a.size) (ht : t < a.size) :
    (a.withEdge s t).Sound guards where
  edges i u hu := by
    rw [targets_withEdge hs] at hu
    rw [size_withEdge]
    split at hu
    · rcases mem_addNew.mp hu with old | rfl
      · exact h.edges s u old
      · exact ht
    · exact h.edges i u hu
  nodup i := by
    rw [targets_withEdge hs]
    split
    · exact nodup_addNew (h.nodup s)
    · exact h.nodup i
  marks i g hm := h.marks i g (mark_withEdge ▸ hm)

/-- Edges may be taken away. -/
theorem shrink (h : a.Sound guards) (hs : s < a.size) (change : List Nat → List Nat)
    (sub : ∀ l, (change l).Sublist l) :
    (a.rewire s change).Sound guards where
  edges i u hu := by
    rw [targets_rewire hs] at hu
    rw [size_rewire]
    split at hu
    · exact h.edges s u ((sub _).subset hu)
    · exact h.edges i u hu
  nodup i := by
    rw [targets_rewire hs]
    split
    · exact (sub _).nodup (h.nodup s)
    · exact h.nodup i
  marks i g hm := h.marks i g (mark_rewire ▸ hm)

theorem mono {more : Nat} (h : a.Sound guards) (le : guards ≤ more) : a.Sound more :=
  { h with marks := fun s g hm => Nat.lt_of_lt_of_le (h.marks s g hm) le }

end Sound

theorem above_size (h : a.size ≤ base) : a.Above base := by
  intro s hs t ht
  rw [targets_of_ge (Nat.le_trans h hs)] at ht
  cases ht

theorem Above.alloc {base : Nat} (h : a.Above base) : (a.alloc guard).2.Above base := by
  intro s hs t ht
  rw [targets_alloc] at ht
  exact h s hs t ht

theorem Above.withEdge {base : Nat} (h : a.Above base) (hs : s < a.size)
    (ht : base ≤ s → base ≤ t) : (a.withEdge s t).Above base := by
  intro i hi u hu
  rw [targets_withEdge hs] at hu
  split at hu
  · next same =>
    subst same
    rcases mem_addNew.mp hu with old | rfl
    · exact h i hi u old
    · exact ht hi
  · exact h i hi u hu

/-- What is added behind a bound leaves no way in front of it. -/
theorem Above.grow {base : Nat} (h : a.Above base) (grows : a.Grows b) (new : b.Above a.size)
    (le : base ≤ a.size) : b.Above base := by
  intro s hs t ht
  by_cases old : s < a.size
  · rw [grows.targets s old] at ht
    exact h s hs t ht
  · exact Nat.le_trans le (new s (by omega) t ht)

end Arena

end WholeMatch
