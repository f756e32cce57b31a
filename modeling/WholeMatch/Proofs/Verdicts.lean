import WholeMatch.Proofs.Backtracking
import WholeMatch.Proofs.Building
import WholeMatch.Proofs.Composites
import WholeMatch.Proofs.Readings
import WholeMatch.Proofs.Thompson

namespace WholeMatch

/-- The automata of a pattern. The second comes to be built if there are ids for all its
composites. -/
structure Automata (p : Pattern) (n : Nfa) (d : Dfa) : Prop where
  nfa : Nfa.ofPattern p = .ok n
  valid : n.Valid
  dfa : ∀ built, Dfa.ofNfa n = .ok built → built = d
  built : Few n.Composes words → Dfa.ofNfa n = .ok d

/-- The matchers find the same, unless backtracking cannot count its repetitions. -/
structure Finds (p : Pattern) (n : Nfa) (d : Dfa) (text : Array Char) (found : Bool) : Prop where
  nfa : n.isMatch text = .ok found
  dfa : Few n.Composes words → d.isMatch text = .ok found
  tree : p.isMatch text = .ok found ∨
    p.isMatch text = .error .count ∧ p.countable text.size = false

theorem Finds.tree_of_countable {p : Pattern} {n : Nfa} {d : Dfa} {text : Array Char}
    {found : Bool} (h : Finds p n d text found) (fits : p.countable text.size = true) :
    p.isMatch text = .ok found := by
  obtain answered | ⟨_, unfit⟩ := h.tree
  · exact answered
  · rw [fits] at unfit
    cases unfit

/-- Guards that are written alike are one guard. -/
theorem faithful_of_wellRead {p : Pattern} {n : Nfa} (h : branchesWellRead p.branches)
    (guards : n.guards.toList = branchesGuards p.branches) : n.Faithful := by
  apply Nfa.faithful_of_labels
  rw [guards]
  intro g hg g' hg' same
  obtain ⟨w, written⟩ := wellRead_guards p.branches h g hg
  obtain ⟨w', written'⟩ := wellRead_guards p.branches h g' hg'
  exact written.eq_of_label written' same

/-- The automaton of a tree that is well read answers as backtracking does. -/
theorem automaton_agrees {p : Pattern} (h : branchesWellRead p.branches)
    (room : p.footprint ≤ words) :
    ∃ n, Nfa.ofPattern p = .ok n ∧ n.Valid ∧ n.Plain ∧ n.Faithful ∧
      n.graph.guard n.start = none ∧
      ∀ text, ∃ found, n.isMatch text = .ok found ∧
        (p.isMatch text = .ok found ∨
          p.isMatch text = .error .count ∧ p.countable text.size = false) := by
  have hp : p.plain = true := wellRead_plain h
  obtain ⟨n, hn, _, valid, guards, free, accepts⟩ := Nfa.ofPattern_accepts room
  have plain := Nfa.plain_of_guards hp guards
  refine ⟨n, hn, valid, plain, faithful_of_wellRead h guards, free, fun text => ?_⟩
  obtain ⟨found, hm, decides⟩ := Nfa.isMatch_accepts valid plain text
  refine ⟨found, hm, (Backtrack.run_initial hp text).imp_left ?_⟩
  rintro ⟨found', hm', spans⟩
  have same : found' = true ↔ found = true := by
    rw [decides, accepts, spans]
    exact (wellRead_spans p.branches h text 0 text.size).symm
  rw [Pattern.isMatch, hm', Bool.eq_iff_iff.mpr same]

/-- An automaton of few states has few composites. -/
theorem few_of_footprint {p : Pattern} {n : Nfa} (hn : Nfa.ofPattern p = .ok n)
    (small : p.footprint ≤ 32) : Few n.Composes words := by
  have room : p.footprint ≤ words := Nat.le_trans small (by decide)
  obtain ⟨n', hn', size, valid, _⟩ := Nfa.ofPattern_accepts room
  rw [hn] at hn'
  cases hn'
  exact few_composes valid (Nat.le_trans size small)

/-- **The three matchers come to one verdict** on a tree that is well read. -/
theorem verdicts_agree {p : Pattern} (h : branchesWellRead p.branches)
    (room : p.footprint ≤ words) :
    ∃ n d, Automata p n d ∧ ∀ text, ∃ found, Finds p n d text found := by
  obtain ⟨n, hn, valid, plain, faithful, free, agree⟩ := automaton_agrees h room
  have composites := Dfa.ofNfa_accepts valid free plain faithful
  cases hd : Dfa.ofNfa n with
  | error f =>
    have many : ¬ Few n.Composes words := by
      intro few
      obtain ⟨d, hd', _⟩ := composites few
      rw [hd] at hd'
      cases hd'
    refine ⟨n, ⟨#[], #[]⟩, ⟨hn, valid, by simp [hd], fun few => absurd few many⟩, fun text => ?_⟩
    obtain ⟨found, hm, tree⟩ := agree text
    exact ⟨found, hm, fun few => absurd few many, tree⟩
  | ok d =>
    refine ⟨n, d, ⟨hn, valid, by simp [hd], fun _ => hd⟩, fun text => ?_⟩
    obtain ⟨found, hm, tree⟩ := agree text
    refine ⟨found, hm, fun few => ?_, tree⟩
    obtain ⟨d', hd', _, answers⟩ := composites few
    rw [hd] at hd'
    cases hd'
    obtain ⟨found', hm', accepts⟩ := Nfa.isMatch_accepts valid plain text
    obtain ⟨found'', hm'', accepts'⟩ := answers text
    rw [hm] at hm'
    cases hm'
    rw [hm'', Bool.eq_iff_iff.mpr (accepts'.trans accepts.symm)]

end WholeMatch
