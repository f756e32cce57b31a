import WholeMatch.Proofs.Merging

/-! `Nfa.collapse` goes through the states once, in an order that is computed before anything is
merged. Nothing is missed: a merge gives targets to the state that is being visited only, and that
one is not left before it has none to merge. -/

namespace WholeMatch

namespace Nfa

variable {n : Nfa}

/-- The states that can be reached from the start. -/
def reached (n : Nfa) : Set Nat := n.graph.reached n.start

/-- The states in reach that have an edge to `t`. -/
def sources (n : Nfa) (t : Nat) : Set Nat := {u | u ∈ n.reached ∧ t ∈ n.graph.targets u}

/-- No free state in reach but the start has one other state as its only source. -/
def Settled (n : Nfa) : Prop :=
  ∀ t ∈ n.reached, n.graph.guard t = none → t ≠ n.start → ∀ s, n.sources t = {s} → s = t

theorem Valid.finite (v : n.Valid) : n.reached.Finite := by
  apply (Set.finite_lt_nat n.size).subset
  intro u reach
  cases reach with
  | refl => exact v.start
  | tail _ edge => exact v.edges _ _ edge

namespace Collapsing

variable {c : Collapsing} {s t : Nat}

/-- The automaton that a collapse of `n` has come to. -/
def automaton (n : Nfa) (c : Collapsing) : Nfa := ⟨c.arena, n.guards, n.start, c.accept⟩

/-- The table lists one entry just when there is one source. -/
theorem Keeps.entries_iff (h : c.Keeps n) :
    entriesOf c.entries t = [s] ↔ (c.automaton n).sources t = {s} := by
  have members : ∀ u, u ∈ entriesOf c.entries t ↔ u ∈ (c.automaton n).sources t := h.entered t
  constructor
  · intro one
    ext u
    rw [← members, one, List.mem_singleton, Set.mem_singleton_iff]
  · intro one
    apply List.perm_singleton.mp
    apply (List.perm_ext_iff_of_nodup (h.once t) (List.nodup_singleton s)).mpr
    intro u
    rw [members, one, List.mem_singleton, Set.mem_singleton_iff]

/-- The states have nothing left to merge just when the automaton is settled. -/
theorem Keeps.settled_iff (h : c.Keeps n) :
    (∀ s ∈ (c.automaton n).reached, c.Settled n.start s) ↔ (c.automaton n).Settled := by
  constructor
  · intro settled t _ free first s one
    have source : s ∈ (c.automaton n).sources t := one ▸ Set.mem_singleton s
    by_contra apart
    have hm : c.Mergeable n.start s t :=
      ⟨Ne.symm apart, first, h.sound.mark_of_guard free, h.entries_iff.mpr one⟩
    exact settled s source.1 t source.2 hm
  · intro settled s reach t edge hm
    apply hm.apart
    have one := h.entries_iff.mp hm.entries
    exact (settled t (reach.tail edge) (Arena.guard_of_mark hm.free) hm.first s one).symm

/-- A state that has nothing to merge absorbs nothing. -/
theorem absorb_settled {id fuel : Nat} (h : c.Keeps n) (hid : id < n.size)
    (settled : c.Settled n.start id) : absorb n.start id (fuel + 1) c = .ok c := by
  have hid : id < c.arena.size := h.size.symm ▸ hid
  obtain ⟨o, ho, some', _⟩ := firstMergeable_spec c n.start id
    (c.arena.targets id) (h.sound.edges id) (h.entries.trans h.size.symm)
  rw [absorb, Arena.edges_of_lt hid, ok_bind, ho]
  cases o with
  | none => rfl
  | some target =>
    obtain ⟨edge, hm⟩ := some' target rfl
    exact absurd hm (settled target edge)

theorem visit_settled (h : c.Keeps n) (start : n.start < n.size) (order : List Nat)
    (settled : ∀ id ∈ order, (c.graph n).Reach n.start id ∧ c.Settled n.start id) :
    visit n.start order c = .ok c := by
  induction order with
  | nil => rfl
  | cons id ids ih =>
    obtain ⟨⟨reach, here⟩, settled⟩ := List.forall_mem_cons.mp settled
    have hid : id < n.size := h.reach_lt start reach
    have room : id < c.gone.size := h.gone.symm ▸ hid
    have turn := (h.stays id (h.shrinks.reach reach)).mpr reach
    rw [Array.getElem?_eq_getElem room] at turn
    rw [visit, lookup_of_lt room, ok_bind, Option.some.inj turn]
    simp only [Bool.false_eq_true, if_false, absorb_settled h hid here, ok_bind, ih settled]

end Collapsing

/-- A settled automaton is its own collapse. -/
theorem collapse_of_settled (v : n.Valid) (nodup : ∀ s, (n.graph.targets s).Nodup)
    (settled : n.Settled) : n.collapse = .ok (0, n) := by
  obtain ⟨order, entries, ho, reach, he, first⟩ := initial_keeps v nodup
  have quiet := first.settled_iff.mpr settled
  have still := Collapsing.visit_settled first v.start order fun id hid =>
    have here := (reach id).mp hid
    ⟨here, quiet id here⟩
  exact collapse_eq ho he still

/-- **A collapse comes to its fixpoint in one visit.** On an automaton with valid ids and no edge
twice it leaves no free state in reach, the start apart, with one other state as its only source.
It counts the states that are no longer in reach, gives no state an edge twice, and collapsing
once more changes nothing. -/
theorem collapse_settles (v : n.Valid) (nodup : ∀ s, (n.graph.targets s).Nodup) :
    ∃ merged n', n.collapse = .ok (merged, n') ∧
      (∀ t ∈ n'.reached, n'.graph.guard t = none → t ≠ n'.start →
        ∀ s, n'.sources t = {s} → s = t) ∧
      n.reached.Finite ∧ n'.reached ⊆ n.reached ∧
      n'.reached.ncard + merged = n.reached.ncard ∧
      (∀ s, (n'.graph.targets s).Nodup) ∧ n'.collapse = .ok (0, n') := by
  obtain ⟨c, hc, h, quiet⟩ := collapse_keeps v nodup
  have settled : (c.automaton n).Settled := h.settled_iff.mp quiet
  exact ⟨c.merged, _, hc, settled, v.finite, fun _ => h.shrinks.reach, h.shrinks.card v.finite,
    h.sound.nodup, collapse_of_settled (h.valid v) h.sound.nodup settled⟩

/-- An automaton whose merges expose others. The state behind the first one merged goes as well,
both before their turn, and the accepting state goes into one that has an edge to itself. An edge
from a state out of reach counts for nothing. -/
def tangles : Nfa where
  arena := ⟨#[⟨none, [1, 2]⟩, ⟨none, [3, 2]⟩, ⟨none, [7]⟩, ⟨none, [2, 4, 0]⟩, ⟨some 0, [5, 4]⟩,
    ⟨none, [6, 2]⟩, ⟨none, [6]⟩, ⟨none, [2, 4]⟩, ⟨none, [5, 8]⟩]⟩
  guards := #[.item ⟨.literal 'a', "a"⟩]
  start := 0
  accept := 5

theorem tangles_valid : tangles.Valid := by decide

theorem collapse_settles_tangles : tangles.Valid ∧ (∀ s, (tangles.graph.targets s).Nodup) ∧
    ∃ merged n', tangles.collapse = .ok (merged, n') ∧
      (∀ t ∈ n'.reached, n'.graph.guard t = none → t ≠ n'.start →
        ∀ s, n'.sources t = {s} → s = t) ∧
      tangles.reached.Finite ∧ n'.reached ⊆ tangles.reached ∧
      n'.reached.ncard + merged = tangles.reached.ncard ∧
      (∀ s, (n'.graph.targets s).Nodup) ∧ n'.collapse = .ok (0, n') :=
  have nodup : ∀ s, (tangles.graph.targets s).Nodup := by
    rintro (_ | _ | _ | _ | _ | _ | _ | _ | _ | s)
    all_goals simp [tangles, Nfa.graph, graphOf, Arena.targets]
  ⟨tangles_valid, nodup, collapse_settles tangles_valid nodup⟩

example : tangles.collapse.map (fun c => (c.1, c.2.accept)) = .ok (4, 4) := by cbv

end Nfa

end WholeMatch
