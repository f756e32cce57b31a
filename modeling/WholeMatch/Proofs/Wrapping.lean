import WholeMatch.Proofs.Repeating

namespace WholeMatch

namespace Arena

variable {a b : Arena} {s t exit : Nat} {f : Fragment}

/-- A guarded state `0` with an edge to its exit `1` has become the first copy of a row that
starts at `2`. The row ends at `3`. -/
structure Lined (a : Arena) : Prop where
  sound : a.Sound 1
  size : 4 ≤ a.size
  guarded : a.mark 0 = some 0
  free : a.mark 3 = none
  template : a.targets 0 = [1]
  entry : a.targets 2 = [0]

/-- A place that a copy of a row may start at or end at. -/
def Apart (s : Nat) : Prop := s ≠ 0 ∧ s ≠ 2

theorem Lined.withEdge (h : a.Lined) (apart : Apart s) (hs : s < a.size) (ht : t < a.size) :
    (a.withEdge s t).Lined where
  sound := h.sound.withEdge hs ht
  size := by rw [size_withEdge]; exact h.size
  guarded := by rw [mark_withEdge, h.guarded]
  free := by rw [mark_withEdge, h.free]
  template := by rw [targets_withEdge hs, if_neg (Ne.symm apart.1), h.template]
  entry := by rw [targets_withEdge hs, if_neg (Ne.symm apart.2), h.entry]

theorem Lined.alloc (h : a.Lined) (guard : Option Nat) (hg : ∀ g, guard = some g → g < 1) :
    (a.alloc guard).2.Lined where
  sound := h.sound.alloc guard hg
  size := by rw [size_alloc]; have := h.size; omega
  guarded := by rw [mark_alloc, if_neg (by have := h.size; omega), h.guarded]
  free := by rw [mark_alloc, if_neg (by have := h.size; omega), h.free]
  template := by rw [targets_alloc, h.template]
  entry := by rw [targets_alloc, h.entry]

theorem Lined.copyAll (h : a.Lined) (hs : s < a.size) :
    copyAll words [(0, s)] a [(0, s), (1, t)] = .ok (a.withEdge s t) := by
  have size := h.size
  have tied : Copying.edges s [1] ⟨a, [(0, s), (1, t)], []⟩ =
      .ok ⟨a.withEdge s t, [(0, s), (1, t)], []⟩ := by
    have known : ([(0, s), (1, t)] : List (Nat × Nat)).lookup 1 = some t := rfl
    rw [Copying.edges, Copying.edge]
    simp only [known, connect_of_lt hs]
    rfl
  rw [show words = 4294967295 + 1 from rfl, Arena.copyAll, edges_of_lt (by omega), h.template,
    ok_bind, tied]
  rfl

/-- The clone of the template has the ids that the places of its states are cut to. -/
theorem Lined.clone (h : a.Lined) (apart : Apart (word (a.size + 1))) :
    ∃ b, a.cloneFragment ⟨0, 1⟩ = .ok (⟨word (a.size + 1), word a.size⟩, b) ∧
      b.size = a.size + 2 ∧ b.Lined := by
  have size := h.size
  have marks := h.sound.marks
  have first := h.alloc (a.mark 1) (marks 1)
  have second := first.alloc (a.mark 0) (marks 0)
  have grown : ((a.alloc (a.mark 1)).2.alloc (a.mark 0)).2.size = a.size + 2 := by
    rw [size_alloc, size_alloc]
  have start : word (a.size + 1) < a.size + 2 := Nat.lt_succ_of_le (Nat.mod_le _ _)
  have stop : word a.size < a.size + 2 := Nat.lt_add_right 1 (Nat.lt_succ_of_le (Nat.mod_le _ _))
  rw [← grown] at start stop
  refine ⟨_, ?_, by rw [size_withEdge, grown], second.withEdge apart start stop⟩
  have here : (a.alloc (a.mark 1)).2.state 0 = .ok ⟨a.mark 0, [1]⟩ := by
    rw [state_of_lt (by rw [size_alloc]; omega), first.template, mark_alloc, if_neg (by omega)]
  have exit : a.alloc (a.mark 1) = (word a.size, (a.alloc (a.mark 1)).2) := rfl
  have entry : (a.alloc (a.mark 1)).2.alloc (a.mark 0) =
      (word (a.size + 1), ((a.alloc (a.mark 1)).2.alloc (a.mark 0)).2) :=
    Prod.ext (congrArg word size_alloc) rfl
  rw [cloneFragment, state_of_lt (show (⟨0, 1⟩ : Fragment).stop < a.size by simp only; omega),
    ok_bind]
  simp only [Nat.zero_ne_one, if_false]
  rw [exit]
  simp only
  rw [here, ok_bind]
  simp only
  rw [entry]
  simp only
  rw [second.copyAll start]
  rfl

end Arena

def wrappedGuard : Guard := .item ⟨.literal 'a', "a"⟩

/-- `a{2147483648}`, with one copy more than there are ids for. -/
def wrapped : Pattern :=
  ⟨[[.guard wrappedGuard ⟨2147483648, some 2147483648⟩ "a{2147483648}"]], "a{2147483648}"⟩

end WholeMatch
