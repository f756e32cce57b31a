import WholeMatch.Proofs.Merging

namespace WholeMatch

namespace Graph

/-- The targets of a state, behind those that are listed already. -/
def discover (g : Graph) (found : List Nat) (s : Nat) : List Nat :=
  (g.targets s).foldl addNew found

/-- The states that can be reached, breadth first: going through them in turn from the start, and
listing the targets of each that are not listed yet, lists just them. -/
structure BreadthFirst (g : Graph) (start : Nat) (order : List Nat) : Prop where
  grows : order.foldl g.discover [start] = order
  mem : ∀ s, s ∈ order ↔ g.Reach start s

theorem prefix_discover (g : Graph) (found : List Nat) (s : Nat) : found <+: g.discover found s :=
  prefix_foldl_addNew _ _

end Graph

namespace Nfa

variable {n : Nfa}

/-- Closing goes on from each member in turn. -/
theorem closeFrom_grows (v : n.Valid) (i : Nat) (seen : IndexSet) : ∀ {l : List Nat},
    seen.Lists n.size l → (l.take i).foldl n.graph.discover [n.start] = l →
    ∀ {after : IndexSet}, n.closeFrom i seen = .ok after →
      after.toList.foldl n.graph.discover [n.start] = after.toList := by
  fun_induction closeFrom n i seen with
  | case1 | case2 =>
    intro _ _ _ _ hc
    cases hc
  | case3 i seen more inside targets he after ha same ih =>
    intro l h grown last hc
    have here := h.getElem?_eq more inside
    rw [edges_eq (h.lt_of_mem (List.mem_of_getElem? here))] at he
    cases he
    obtain ⟨after', ha', h'⟩ := addTargets_lists _ h (v.edges _)
    cases ha.symm.trans ha'
    refine ih h' ?_ hc
    -- the targets come behind all that is listed, so the first `i + 1` members stay what they are
    obtain ⟨behind, longer⟩ := n.graph.prefix_discover l seen.dense[i]
    have lt : i + 1 ≤ l.length := (List.getElem?_eq_some_iff.mp here).1
    have worked : (n.graph.discover l seen.dense[i]).take (i + 1) =
        l.take i ++ [seen.dense[i]] := by
      rw [← longer, List.take_append_of_le_length lt, List.take_add_one, here]
      rfl
    calc
      _ = (l.take i ++ [seen.dense[i]]).foldl n.graph.discover [n.start] :=
        congrArg (List.foldl n.graph.discover [n.start]) worked
      _ = n.graph.discover l seen.dense[i] := by
        rw [List.foldl_append, grown]
        rfl
  | case4 i seen done =>
    intro l h grown after hc
    cases hc
    rw [List.take_of_length_le (by rw [← h.size_eq]; omega)] at grown
    rw [h.members, grown]

/-- **The states that can be reached are listed breadth first.** -/
theorem reachable_breadthFirst (v : n.Valid) :
    ∃ order, n.reachable = .ok order ∧ n.graph.BreadthFirst n.start order := by
  obtain ⟨order, hr, _, mem⟩ := reachable_spec v
  refine ⟨order, hr, ?_, mem⟩
  obtain ⟨first, hi, h⟩ := (IndexSet.lists_empty n.size).insert_eq v.start
  rw [reachable, hi, ok_bind] at hr
  obtain ⟨after, hc, hr⟩ := bind_eq_ok.mp hr
  cases hr
  exact closeFrom_grows v 0 first h rfl hc

end Nfa

end WholeMatch
