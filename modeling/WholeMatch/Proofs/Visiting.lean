import WholeMatch.Proofs.Walking

namespace WholeMatch

namespace Nfa

variable {n : Nfa} {text : Array Char} {s t p q : Nat}

/-- A run from the start can come to a state at a place of the text. The start is entered without
being tested, wherever it has a guard. -/
inductive Visits (n : Nfa) (text : Array Char) : Nat → Nat → Prop
  | start : Visits n text n.start 0
  /-- a state without a guard is entered as it is -/
  | free {s t p : Nat} (here : Visits n text s p) (edge : t ∈ n.graph.targets s)
      (unguarded : n.graph.guard t = none) : Visits n text t p
  /-- an assertion lets a run in where it holds -/
  | holds {s t p : Nat} {i : Item} {a : Assertion} (here : Visits n text s p)
      (edge : t ∈ n.graph.targets s) (guarded : n.graph.guard t = some (.item i))
      (asserts : i.test = .assertion a)
      (held : a.between (charBefore text p) text[p]? = true) : Visits n text t p
  /-- any other guard lets a run in that reads a character it accepts -/
  | reads {s t p : Nat} {g : Guard} {c : Char} (here : Visits n text s p)
      (edge : t ∈ n.graph.targets s) (guarded : n.graph.guard t = some g)
      (width : g.zeroWidth = false) (char : text[p]? = some c) (accepted : g.accepts c = true) :
      Visits n text t (p + 1)

theorem Visits.inside (h : n.Visits text s p) : p ≤ text.size := by
  induction h with
  | start => exact Nat.zero_le _
  | free _ _ _ ih => exact ih
  | holds _ _ _ _ _ ih => exact ih
  | reads _ _ _ _ char _ _ => exact (Array.getElem?_eq_some_iff.mp char).1

/-- An edge of the graph is taken by one of the rules. -/
theorem Visits.step (h : n.Visits text s p) (step : n.graph.Step text (s, p) (t, q)) :
    n.Visits text t q := by
  obtain ⟨edge, enters⟩ := step
  simp only at edge enters
  cases guarded : n.graph.guard t with
  | none =>
    rw [Graph.enters_of_guard_none guarded] at enters
    exact enters ▸ h.free edge guarded
  | some g =>
    rw [Graph.enters_of_guard guarded] at enters
    cases enters with
    | reads width char accepted => exact h.reads edge guarded width char accepted
    | holds asserts _ held => exact h.holds edge guarded asserts held

theorem visits_iff_run : n.Visits text s p ↔ n.graph.Run text (n.start, 0) (s, p) := by
  constructor
  · intro h
    induction h with
    | start => exact .refl
    | free _ edge unguarded ih =>
      exact ih.tail ⟨edge, (Graph.enters_of_guard_none unguarded).mpr rfl⟩
    | holds here edge guarded asserts held ih =>
      exact ih.tail ⟨edge, (Graph.enters_of_guard guarded).mpr (.holds asserts here.inside held)⟩
    | reads _ edge guarded width char accepted ih =>
      exact ih.tail ⟨edge, (Graph.enters_of_guard guarded).mpr (.reads width char accepted)⟩
  · intro run
    suffices all : ∀ x, n.graph.Run text (n.start, 0) x → n.Visits text x.1 x.2 from all _ run
    intro x run
    induction run with
    | refl => exact .start
    | tail _ step ih => exact ih.step step

/-- **The simulation decides whether a run accepts.** Whatever circles the edges of an automaton
make, if its ids are valid and its guards plain, the simulation comes to a verdict on every text,
and finds a match exactly when a run comes to the accepting state at the end. -/
theorem simulation_decides_runs (v : n.Valid) (hp : n.Plain) (text : Array Char) :
    ∃ found, n.isMatch text = .ok found ∧
      (found = true ↔ n.Visits text n.accept text.size) := by
  obtain ⟨found, hm, decides⟩ := isMatch_accepts v hp text
  exact ⟨found, hm, decides.trans visits_iff_run.symm⟩

/-- An automaton whose start has a guard that only a way back to it tests. Free edges and two
assertions lead round in circles, and edges go on from the accepting state. -/
def whirls : Nfa where
  arena := ⟨#[⟨some 0, [1, 2]⟩, ⟨none, [1, 0, 3]⟩, ⟨some 1, [3, 1, 2]⟩, ⟨some 2, [2, 4]⟩,
    ⟨none, [4, 1]⟩]⟩
  guards := #[.item ⟨.literal 'a', "a"⟩, .item ⟨.assertion .boundary, "\\b"⟩,
    .item ⟨.assertion .lineEnd, "$"⟩]
  start := 0
  accept := 4

theorem whirls_valid : whirls.Valid := by decide

theorem simulation_decides_whirls : whirls.Valid ∧ whirls.Plain ∧
    ∃ found, whirls.isMatch #['a', 'a'] = .ok found ∧
      (found = true ↔ whirls.Visits #['a', 'a'] whirls.accept 2) :=
  have plain : whirls.Plain := by unfold Nfa.Plain; decide
  ⟨whirls_valid, plain, simulation_decides_runs whirls_valid plain #['a', 'a']⟩

end Nfa

end WholeMatch
