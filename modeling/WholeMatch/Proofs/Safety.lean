import WholeMatch.Proofs.Estimating
import WholeMatch.Proofs.Overflowing
import WholeMatch.Proofs.Verdicts

namespace WholeMatch

/-- **Merging changes no verdict.** An automaton with valid ids, no edge twice and plain guards is
collapsed, whatever circles its edges make. The start stays, and both automata come to the same
verdict on every text. -/
theorem collapse_keeps_verdicts {n : Nfa} (v : n.Valid) (nodup : ∀ s, (n.graph.targets s).Nodup)
    (hp : n.Plain) : ∃ merged n', n.collapse = .ok (merged, n') ∧ n'.start = n.start ∧
      ∀ text, ∃ found, n.isMatch text = .ok found ∧ n'.isMatch text = .ok found := by
  obtain ⟨merged, n', hc, v', _, guards, start, _, accepts⟩ := Nfa.collapse_accepts v nodup
  have hp' : n'.Plain := by
    unfold Nfa.Plain
    rw [guards]
    exact hp
  refine ⟨merged, n', hc, start, fun text => ?_⟩
  obtain ⟨found, hm, decides⟩ := Nfa.isMatch_accepts v hp text
  obtain ⟨found', hm', decides'⟩ := Nfa.isMatch_accepts v' hp' text
  have same : found = found' :=
    Bool.eq_iff_iff.mpr (decides.trans ((accepts text).symm.trans decides'.symm))
  exact ⟨found, hm, same ▸ hm'⟩

/-- An automaton whose free edges lead round in circles: back to the start, from a state to itself
and between two others. The last state cannot be reached; the accepting one goes into a state that
has a guard. -/
def knots : Nfa where
  arena := ⟨#[⟨none, [1, 2]⟩, ⟨none, [1, 3]⟩, ⟨none, [4]⟩, ⟨some 0, [0, 5]⟩, ⟨none, [3, 2, 0]⟩,
    ⟨none, [3]⟩, ⟨some 1, [2, 6]⟩]⟩
  guards := #[.item ⟨.literal 'a', "a"⟩, .item ⟨.assertion .boundary, "\\b"⟩]
  start := 0
  accept := 5

theorem knots_valid : knots.Valid := by decide

theorem collapse_keeps_knots : knots.Valid ∧ (∀ s, (knots.graph.targets s).Nodup) ∧ knots.Plain ∧
    ∃ merged n', knots.collapse = .ok (merged, n') ∧ n'.start = knots.start ∧
      ∀ text, ∃ found, knots.isMatch text = .ok found ∧ n'.isMatch text = .ok found :=
  have nodup : ∀ s, (knots.graph.targets s).Nodup := by
    rintro (_ | _ | _ | _ | _ | _ | _ | s)
    all_goals simp [knots, Nfa.graph, graphOf, Arena.targets]
  have plain : knots.Plain := by unfold Nfa.Plain; decide
  ⟨knots_valid, nodup, plain, collapse_keeps_verdicts knots_valid nodup plain⟩

example : knots.collapse.map (fun c => (c.1, c.2.accept)) = .ok (2, 3) := by cbv

/-- **What can be read is compiled and matched.** Its automaton is drafted and collapsed, and if
there are ids for all the composites of that, they are found. A guard answers wherever it is asked,
and leads on in the window it is asked in. On every text the automaton as it is drafted and as it is
collapsed and the composites come to a verdict, and so does backtracking, unless it cannot count its
repetitions. -/
theorem compiling_and_matching_answer {source : String} {p : Pattern}
    (h : Pattern.parse source = .ok p) :
    ∃ drafted merged n, Nfa.draft p = .ok drafted ∧ drafted.collapse = .ok (merged, n) ∧
      Nfa.ofPattern p = .ok n ∧
      (∀ g ∈ branchesGuards p.branches, ∀ place : Cursor, ∃ hit next,
        g.attempt place = .ok (hit, next) ∧ place.Leads next) ∧
      (∀ text, ((∃ found, p.isMatch text = .ok found) ∨
          p.isMatch text = .error .count ∧ p.countable text.size = false) ∧
        (∃ found, drafted.isMatch text = .ok found) ∧ ∃ found, n.isMatch text = .ok found) ∧
      (Few n.Composes words →
        ∃ d, Dfa.ofNfa n = .ok d ∧ ∀ text, ∃ found, d.isMatch text = .ok found) := by
  have read := parse_wellRead h
  have plain : p.plain = true := wellRead_plain read
  have room := footprint_le_words h
  obtain ⟨drafted, hd, _, valid, guards, _, nodup, _⟩ := Nfa.draft_accepts room
  obtain ⟨merged, n', hc, _⟩ := Nfa.collapse_accepts valid nodup
  obtain ⟨n, d, automata, agree⟩ := verdicts_agree read room
  have same : n' = n := by
    have built := automata.nfa
    rw [Nfa.ofPattern, hd, ok_bind, hc] at built
    exact Except.ok.inj built
  refine ⟨drafted, merged, n, hd, same ▸ hc, automata.nfa, fun g hg place => ?_,
    fun text => ⟨?_, ?_, ?_⟩, fun few => ⟨d, automata.built few, fun text => ?_⟩⟩
  · have plainGuards := (plainBranches_iff_guards p.branches).mp plain
    exact g.attempt_of_plain (plainGuards g hg) place
  · obtain ⟨found, finds⟩ := agree text
    exact finds.tree.imp_left fun answered => ⟨found, answered⟩
  · obtain ⟨found, hm, _⟩ := Nfa.isMatch_accepts valid (Nfa.plain_of_guards plain guards) text
    exact ⟨found, hm⟩
  · obtain ⟨found, finds⟩ := agree text
    exact ⟨found, finds.nfa⟩
  · obtain ⟨found, finds⟩ := agree text
    exact ⟨found, finds.dfa few⟩

/-- `([^a-c\d]|\b){2,}[xy]?`, where a negated class and a repeated assertion fall back on each
other. -/
def fallingBack : Pattern :=
  let apart : Guard :=
    .charset ⟨true, [⟨.range 'a' 'c', "a-c"⟩, ⟨.named .digit, "\\d"⟩], "[^a-c\\d]"⟩
  let edge : Guard := .item ⟨.assertion .boundary, "\\b"⟩
  let last : Guard := .charset ⟨false, [⟨.literal 'x', "x"⟩, ⟨.literal 'y', "y"⟩], "[xy]"⟩
  ⟨[[.group [[.guard apart .once "[^a-c\\d]"], [.guard edge .once "\\b"]] "[^a-c\\d]|\\b" ⟨2, none⟩
      "([^a-c\\d]|\\b){2,}[xy]?", .guard last ⟨0, some 1⟩ "[xy]?"]],
    "([^a-c\\d]|\\b){2,}[xy]?"⟩

theorem compiling_and_matching_answer_falling_back :
    Pattern.parse "([^a-c\\d]|\\b){2,}[xy]?" = .ok fallingBack ∧
    fallingBack.countable 3 = true ∧ (∃ found, fallingBack.isMatch #['x', '4', 'y'] = .ok found) ∧
    ∃ drafted merged n d, Nfa.draft fallingBack = .ok drafted ∧
      drafted.collapse = .ok (merged, n) ∧ Dfa.ofNfa n = .ok d ∧
      ∀ text, (∃ found, drafted.isMatch text = .ok found) ∧
        (∃ found, n.isMatch text = .ok found) ∧ ∃ found, d.isMatch text = .ok found := by
  have read : Pattern.parse "([^a-c\\d]|\\b){2,}[xy]?" = .ok fallingBack := by cbv
  have fits : fallingBack.countable 3 = true := by decide
  obtain ⟨drafted, merged, n, hd, hc, hn, _, matching, composites⟩ :=
    compiling_and_matching_answer read
  obtain ⟨d, built, answers⟩ := composites (few_of_footprint hn (by decide))
  refine ⟨read, fits, ?_, drafted, merged, n, d, hd, hc, built,
    fun text => ⟨(matching text).2.1, (matching text).2.2, answers text⟩⟩
  rcases (matching #['x', '4', 'y']).1 with answered | ⟨_, long⟩
  · exact answered
  · exact absurd fits (long ▸ Bool.false_ne_true)

/-- Backtracking does not answer where iterations in place are too many to count. -/
theorem matching_fails_beyond_counting :
    Pattern.parse "(^|a)+" = .ok Backtrack.anchored ∧
      Backtrack.anchored.isMatch (.replicate 4294967295 'a') = .error .count :=
  ⟨by cbv, (Backtrack.anchored_overflows (Nat.le_refl _)).run_eq _⟩

end WholeMatch
