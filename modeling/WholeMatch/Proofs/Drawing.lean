import WholeMatch.Dot
import WholeMatch.Proofs.Merging
import WholeMatch.Proofs.Stepping

namespace WholeMatch

theorem mapM_total {ε α β : Type} {f : α → Except ε β} {xs : List α}
    (h : ∀ x ∈ xs, ∃ y, f x = .ok y) : ∃ ys, xs.mapM f = .ok ys := by
  induction xs with
  | nil => exact ⟨[], rfl⟩
  | cons x xs ih =>
    obtain ⟨hx, hxs⟩ := List.forall_mem_cons.mp h
    obtain ⟨y, hy⟩ := hx
    obtain ⟨ys, hys⟩ := ih hxs
    exact ⟨y :: ys, by rw [List.mapM_cons, hy, ok_bind, hys, ok_bind]; rfl⟩

namespace Nfa

variable {n : Nfa}

theorem edgeLabel_total (v : n.Valid) {t : Nat} (ht : t < n.size) :
    ∃ label, n.edgeLabel t = .ok label := by
  rw [edgeLabel, v.guardOf_eq ht, ok_bind]
  split <;> exact ⟨_, rfl⟩

theorem labelledEdges_total (v : n.Valid) : ∃ edges, n.labelledEdges = .ok edges := by
  obtain ⟨order, ho, inside, _⟩ := reachable_spec v
  have listed : ∀ id ∈ order, ∃ edges, (do
      (← n.edges id).mapM fun target => do
        return (id, target, ← n.edgeLabel target)) = Except.ok (ε := Fault) edges := by
    intro id hid
    rw [edges_eq (inside id hid), ok_bind]
    apply mapM_total
    intro t ht
    obtain ⟨label, hl⟩ := edgeLabel_total v (v.edges id t ht)
    exact ⟨_, by rw [hl, ok_bind]; rfl⟩
  obtain ⟨edges, he⟩ := mapM_total listed
  exact ⟨edges.flatten, by rw [labelledEdges, ho, ok_bind, he, ok_bind]; rfl⟩

theorem toDot_total (v : n.Valid) : ∃ text, n.toDot = .ok text := by
  obtain ⟨edges, he⟩ := labelledEdges_total v
  exact ⟨_, by rw [toDot, he, ok_bind]; rfl⟩

end Nfa

namespace Dfa

variable {d : Dfa}

theorem edgeLabel_total (v : d.Valid) {t : Nat} (ht : t < d.size) :
    ∃ label, d.edgeLabel t = .ok label := by
  obtain ⟨c, hc, _⟩ := composite_eq ht
  rw [edgeLabel, v.guardOf_eq ht, ok_bind]
  split
  · exact ⟨_, rfl⟩
  · exact ⟨_, by rw [hc, ok_bind]; rfl⟩

theorem statements_total (v : d.Valid) {id : Nat} {c : Composite}
    (hc : d.composites[id]? = some c) : ∃ lines, d.statements id c = .ok lines := by
  have drawn : ∀ t ∈ c.edges, ∃ line, (do
      return Dot.edge (stateName id) (stateName t) (← d.edgeLabel t)) =
        Except.ok (ε := Fault) line := by
    intro t ht
    obtain ⟨label, hl⟩ := edgeLabel_total v (v.edges id t (mem_edgesOf hc ht))
    exact ⟨_, by rw [hl, ok_bind]; rfl⟩
  obtain ⟨lines, hl⟩ := mapM_total drawn
  exact ⟨_, by rw [statements, hl, ok_bind]; rfl⟩

theorem toDot_total (v : d.Valid) : ∃ text, d.toDot = .ok text := by
  have drawn : ∀ x ∈ d.composites.toList.zipIdx, ∃ lines, d.statements x.2 x.1 = .ok lines := by
    intro x hx
    apply statements_total v
    simpa using List.mem_zipIdx_iff_getElem?.mp hx
  obtain ⟨lines, hl⟩ := mapM_total drawn
  exact ⟨_, by rw [toDot, hl, ok_bind]; rfl⟩

end Dfa

end WholeMatch
