import WholeMatch.Proofs.Overflowing
import WholeMatch.Proofs.Sessions

namespace WholeMatch

/-- By every matcher the regex finds the same in a text, unless backtracking cannot count its
repetitions there. -/
def Regex.Answers (r : Regex) (text : String) (found : Bool) : Prop :=
  ∀ strategy, (r.isMatchWith text strategy).map Used.answer = .ok found ∨
    strategy = .backtrack ∧ (r.isMatchWith text strategy).map Used.answer = .error .count ∧
      r.pattern.countable text.length = false

section
variable {p : Pattern} {chosen : Strategy} {n : Nfa} {d : Dfa} {order : List Nat}
  {built : List Stage}

theorem Regex.verdict_having (a : Automata p n d) (ho : n.reachable = .ok order)
    (standing : Standing n d built) (text : String) (strategy : Strategy) :
    ((having p chosen n d built).isMatchWith text strategy).map Used.answer =
      strategy.verdict p n text := by
  rw [isMatchWith_having a ho text strategy standing]
  cases strategy.verdict p n text <;> rfl

theorem Regex.answers_having (a : Automata p n d) (ho : n.reachable = .ok order)
    (few : Few n.Composes words) (standing : Standing n d built) {text : String} {found : Bool}
    (finds : Finds p n d text.toList.toArray found) :
    (having p chosen n d built).Answers text found := by
  intro strategy
  rw [verdict_having a ho standing]
  cases strategy with
  | backtrack =>
    refine finds.tree.imp id fun ⟨uncounted, long⟩ => ⟨rfl, uncounted, ?_⟩
    rwa [List.size_toArray, String.length_toList] at long
  | nfa => exact .inl finds.nfa
  | dfa =>
    apply Or.inl
    rw [Strategy.verdict, a.built few]
    exact finds.dfa few

end

/-- **The matchers agree.** On a pattern that can be read, the tree, its automaton and the
composites of that come to one verdict about every text, as far as words suffice: there are ids for
all the composites, and backtracking can count its repetitions. A regex compiled from the pattern,
for whatever matcher and after whatever requests, gives that verdict by every matcher. -/
theorem matchers_agree {source : String} {p : Pattern} (h : Pattern.parse source = .ok p) :
    ∃ n d, Nfa.ofPattern p = .ok n ∧ (Few n.Composes words → Dfa.ofNfa n = .ok d) ∧
      (∀ text, ∃ found, Finds p n d text found) ∧
      (Few n.Composes words → ∀ chosen, ∃ r log, Regex.compile source chosen = .ok (r, log) ∧
        ∀ requests outcomes r', r.performAll requests = .ok (outcomes, r') → ∀ text : String,
          ∃ found, Finds p n d text.toList.toArray found ∧ r'.Answers text found) := by
  obtain ⟨n, d, a, agree⟩ := verdicts_agree (parse_wellRead h) (footprint_le_words h)
  obtain ⟨order, ho, _⟩ := Nfa.reachable_spec a.valid
  refine ⟨n, d, a.nfa, a.built, agree, fun few chosen => ?_⟩
  have compiled := (Regex.compile_having a ho h chosen).1 fun _ => a.built few
  have standing := standing_nil.needs chosen fun _ => a.built few
  refine ⟨_, _, compiled, fun requests outcomes r' performed text => ?_⟩
  obtain ⟨_, rfl, later⟩ := Regex.having_of_performAll a ho standing performed
  obtain ⟨found, finds⟩ := agree text.toList.toArray
  exact ⟨found, finds, Regex.answers_having a ho few later finds⟩

/-- `((a|\b)*|[ab]a)+$`, in which an `a` can be read in three ways. -/
def overlaps : Pattern :=
  let a : Guard := .item ⟨.literal 'a', "a"⟩
  let edge : Guard := .item ⟨.assertion .boundary, "\\b"⟩
  let either : Guard :=
    .charset ⟨false, [⟨.literal 'a', "a"⟩, ⟨.literal 'b', "b"⟩], "[ab]"⟩
  let last : Guard := .item ⟨.assertion .lineEnd, "$"⟩
  let inner : Term :=
    .group [[.guard a .once "a"], [.guard edge .once "\\b"]] "a|\\b" ⟨0, none⟩ "(a|\\b)*"
  let pair : Branch := [.guard either .once "[ab]a", .guard a .once "a"]
  ⟨[[.group [[inner], pair] "(a|\\b)*|[ab]a" ⟨1, none⟩ "((a|\\b)*|[ab]a)+$",
    .guard last .once "$"]], "((a|\\b)*|[ab]a)+$"⟩

theorem matchers_agree_on_overlaps : Pattern.parse "((a|\\b)*|[ab]a)+$" = .ok overlaps ∧
    overlaps.countable 3 = true ∧ ∃ n d, Nfa.ofPattern overlaps = .ok n ∧ Dfa.ofNfa n = .ok d ∧
      (∃ found, overlaps.isMatch #['a', 'b', 'a'] = .ok found ∧
        n.isMatch #['a', 'b', 'a'] = .ok found ∧ d.isMatch #['a', 'b', 'a'] = .ok found) ∧
      ∀ chosen, ∃ r log, Regex.compile "((a|\\b)*|[ab]a)+$" chosen = .ok (r, log) ∧
        ∀ requests outcomes r', r.performAll requests = .ok (outcomes, r') → ∀ text : String,
          ∃ found, Finds overlaps n d text.toList.toArray found ∧ r'.Answers text found := by
  have read : Pattern.parse "((a|\\b)*|[ab]a)+$" = .ok overlaps := by cbv
  have fits : overlaps.countable 3 = true := by decide
  obtain ⟨n, d, hn, built, agree, regexes⟩ := matchers_agree read
  have few : Few n.Composes words := few_of_footprint hn (by decide)
  obtain ⟨found, finds⟩ := agree #['a', 'b', 'a']
  exact ⟨read, fits, n, d, hn, built few,
    ⟨found, finds.tree_of_countable fits, finds.nfa, finds.dfa few⟩, regexes few⟩

section
variable {size : Nat}

theorem anchoredBody_spans {i : Nat} (inside : i < size) :
    spansBranches Repeat.Copies (.replicate size 'a') Backtrack.anchoredBody i (i + 1) := by
  have once : Repeat.once.Copies 1 := ⟨Nat.le_refl 1, fun m hm => .inr rfl⟩
  exact .inr (.inl ⟨i + 1, ⟨1, once, Power.one.mpr (Backtrack.letterA_spans inside)⟩, rfl⟩)

theorem anchoredBody_power (left : Nat) : ∀ {i : Nat}, i + left = size →
    Power (fun p q => spansBranches Repeat.Copies (.replicate size 'a') Backtrack.anchoredBody p q)
      left i size := by
  induction left with
  | zero => exact id
  | succ left ih =>
    intro i hi
    exact ⟨i + 1, anchoredBody_spans (by omega), ih (by omega)⟩

theorem anchored_spans (some : 0 < size) :
    Backtrack.anchored.Spans Repeat.Copies (.replicate size 'a') 0 size :=
  .inl ⟨size, ⟨size, ⟨some, nofun⟩, anchoredBody_power size (Nat.zero_add size)⟩, rfl⟩

/-- The automata find a match where backtracking does not. -/
theorem anchored_found (some : 0 < size) :
    ∃ n d, Nfa.ofPattern Backtrack.anchored = .ok n ∧ Dfa.ofNfa n = .ok d ∧
      n.isMatch (.replicate size 'a') = .ok true ∧ d.isMatch (.replicate size 'a') = .ok true := by
  have read : Pattern.parse "(^|a)+" = .ok Backtrack.anchored := by cbv
  have room : Backtrack.anchored.footprint ≤ words := by decide
  obtain ⟨n, d, a, agree⟩ := verdicts_agree (parse_wellRead read) room
  have few : Few n.Composes words := few_of_footprint a.nfa (by decide)
  obtain ⟨found, finds⟩ := agree (.replicate size 'a')
  obtain ⟨n', hn, _, valid, guards, _, accepts⟩ := Nfa.ofPattern_accepts room
  rw [a.nfa] at hn
  cases hn
  obtain ⟨found', hm, decides⟩ :=
    Nfa.isMatch_accepts valid (Nfa.plain_of_guards rfl guards) (.replicate size 'a')
  rw [finds.nfa] at hm
  cases hm
  have spans := anchored_spans some
  obtain rfl : found = true := by
    rw [decides, accepts, Array.size_replicate]
    exact spans
  exact ⟨n, d, a.nfa, a.built few, finds.nfa, finds.dfa few⟩

end

/-- Where iterations in place are too many to count, backtracking comes to no verdict, though the
automata find a match. -/
theorem matchers_disagree_beyond_counting :
    Pattern.parse "(^|a)+" = .ok Backtrack.anchored ∧
      Backtrack.anchored.isMatch (.replicate 4294967295 'a') = .error .count ∧
      ∃ n d, Nfa.ofPattern Backtrack.anchored = .ok n ∧ Dfa.ofNfa n = .ok d ∧
        n.isMatch (.replicate 4294967295 'a') = .ok true ∧
        d.isMatch (.replicate 4294967295 'a') = .ok true :=
  ⟨by cbv, (Backtrack.anchored_overflows (Nat.le_refl _)).run_eq _, anchored_found (by decide)⟩

end WholeMatch
