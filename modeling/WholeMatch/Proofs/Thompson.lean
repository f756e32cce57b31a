import WholeMatch.Proofs.Drafting
import WholeMatch.Proofs.Merging
import WholeMatch.Proofs.Walking
import WholeMatch.Proofs.Wrapping

namespace WholeMatch

/-- Where nothing leads on from a state, a run that comes to it ends there. -/
theorem Graph.run_iff_runTo {g : Graph} {text : Array Char} {stop q : Nat} {x : Nat × Nat}
    (last : g.targets stop = []) : g.Run text x (stop, q) ↔ g.RunTo text stop x (stop, q) := by
  constructor
  · intro run
    induction run using Relation.ReflTransGen.head_induction_on with
    | refl => exact .refl
    | @head a b step _ ih =>
      refine .head ⟨?_, step⟩ ih
      intro same
      have edge := step.1
      rw [same, last] at edge
      cases edge
  · intro run
    induction run using Relation.ReflTransGen.head_induction_on with
    | refl => exact .refl
    | head step _ ih => exact .head step.2 ih

namespace Nfa

theorem draft_accepts {p : Pattern} (room : p.footprint ≤ words) :
    ∃ n, Nfa.draft p = .ok n ∧ n.size ≤ p.footprint ∧ n.Valid ∧
      n.guards.toList = branchesGuards p.branches ∧ n.graph.guard n.start = none ∧
      (∀ s, (n.graph.targets s).Nodup) ∧
      ∀ text, n.Accepts text ↔ p.Spans Repeat.Copies text 0 text.size := by
  have none' : Draft.empty.arena.size = 0 := rfl
  obtain ⟨f, d, hb, size, builds, free⟩ := Draft.branches_builds p.branches Draft.Sound.empty
    (by rw [none', Nat.zero_add]; exact room)
  have start : d.graph.guard f.start = none := Arena.guard_of_mark free
  have sound := builds.sound.arena
  refine ⟨⟨d.arena, d.guards, f.start, f.stop⟩, ?_, ?_, ?_, ?_, start, sound.nodup, fun text => ?_⟩
  · rw [draft, hb]
    rfl
  · rwa [none', Nat.zero_add] at size
  · exact ⟨builds.holds.start.2, builds.holds.stop.2, sound.edges, sound.marks⟩
  · simpa [Draft.empty] using builds.grows.guards
  · have last : d.graph.targets f.stop = [] := builds.untied
    exact (Graph.run_iff_runTo last).trans ((Graph.crosses_free start).symm.trans
      (builds.holds.crosses text 0 text.size))

/-- **The automaton of a pattern accepts what the pattern spans.** Its guards are those of the
pattern, and the start has none. -/
theorem ofPattern_accepts {p : Pattern} (room : p.footprint ≤ words) :
    ∃ n, Nfa.ofPattern p = .ok n ∧ n.size ≤ p.footprint ∧ n.Valid ∧
      n.guards.toList = branchesGuards p.branches ∧ n.graph.guard n.start = none ∧
      ∀ text, n.Accepts text ↔ p.Spans Repeat.Copies text 0 text.size := by
  obtain ⟨drafted, hd, size, valid, guards, free, nodup, accepts⟩ := draft_accepts room
  obtain ⟨merged, n, hc, valid', same, guards', start, guard, accepts'⟩ :=
    collapse_accepts valid nodup
  refine ⟨n, ?_, same ▸ size, valid', guards' ▸ guards, ?_,
    fun text => (accepts' text).trans (accepts text)⟩
  · rw [ofPattern, hd, ok_bind, hc]
    rfl
  · rw [start, guard, free]

theorem plain_of_guards {n : Nfa} {p : Pattern} (hp : p.plain = true)
    (guards : n.guards.toList = branchesGuards p.branches) : n.Plain := by
  intro g hg
  rw [Pattern.plain, plainBranches_iff_guards, ← guards] at hp
  exact hp g (Array.mem_toList_iff.mpr hg)

end Nfa

/-- What reads one character each time it is taken reads as many as it is taken times. -/
theorem Power.reads {r : Nat → Nat → Prop} (one : ∀ i j, r i j → j = i + 1) {k : Nat} :
    ∀ {i j : Nat}, Power r k i j → j = i + k := by
  induction k with
  | zero => exact Eq.symm
  | succ k ih =>
    rintro i j ⟨p, hp, hj⟩
    rw [ih hj, one i p hp]
    omega

end WholeMatch
