import WholeMatch.Proofs.Stepping
import WholeMatch.Proofs.Subsets
import WholeMatch.Proofs.Walking

namespace WholeMatch

/-- Both guards read or neither does, and at every place of every text they give one answer. -/
def Guard.Alike (g g' : Guard) : Prop :=
  g.zeroWidth = g'.zeroWidth ∧
    ∀ (text : Array Char) (pos : Nat) (place : Cursor),
      (Cursor.ofText text).moveTo pos = .ok place →
      (g.attempt place).map Prod.fst = (g'.attempt place).map Prod.fst

/-- Guards of one label behave alike. -/
def Nfa.Faithful (n : Nfa) : Prop :=
  ∀ g ∈ n.guards, ∀ g' ∈ n.guards, g.label = g'.label → g.Alike g'

theorem Guard.Alike.refl (g : Guard) : g.Alike g :=
  ⟨rfl, fun _ _ _ _ => rfl⟩

/-- Guards that behave alike span the same. -/
theorem Guard.Alike.spans {g g' : Guard} (h : g.Alike g') (hg : g.plain = true)
    (hg' : g'.plain = true) {text : Array Char} {p q : Nat} (spans : g.Spans text p q) :
    g'.Spans text p q := by
  have inside : p ≤ text.size := Nat.le_trans spans.le spans.inside
  obtain ⟨place, hm, hplace, here⟩ := Cursor.moveTo_ofText text p inside
  obtain ⟨hit, next, ha, answers⟩ := Guard.attempt_answers hg hplace
  obtain ⟨hit', next', ha', answers'⟩ := Guard.attempt_answers hg' hplace
  have same := h.2 text p place hm
  rw [ha, ha', Except.map, Except.map, Except.ok.injEq] at same
  simp only at same
  rw [here, same, h.1] at answers
  rw [here] at answers'
  exact (answers' q).mpr ((answers q).mp spans)

/-- It is enough that a label is that of one guard only. -/
theorem Nfa.faithful_of_labels {n : Nfa}
    (h : ∀ g ∈ n.guards.toList, ∀ g' ∈ n.guards.toList, g.label = g'.label → g = g') :
    n.Faithful := by
  intro g hg g' hg' same
  rw [h g (Array.mem_toList_iff.mpr hg) g' (Array.mem_toList_iff.mpr hg') same]
  exact .refl g'

namespace Dfa

variable {d : Dfa} {n : Nfa} {text : Array Char}

namespace Depicts

theorem plain (h : d.Depicts n) (hp : n.Plain) : d.Plain := by
  intro guard hg
  rw [h.guards] at hg
  exact hp guard hg

theorem valid (h : d.Depicts n) : d.Valid where
  root := by
    obtain ⟨c, hc, _⟩ := h.root
    exact (Array.getElem?_eq_some_iff.mp hc).1
  edges id t ht := by
    obtain ⟨c, hc, ht⟩ := exists_edge ht
    obtain ⟨_, c', hc', _⟩ := (h.composites id c hc).2.sound t ht
    exact (Array.getElem?_eq_some_iff.mp hc').1
  guards id c g hc hg := by
    have kind := (h.composites id c hc).1.kind
    rw [hg] at kind
    obtain ⟨own, here, _⟩ := kind
    rw [h.guards]
    exact (Array.getElem?_eq_some_iff.mp here).1

/-- The guard of a composite has the label of those of its members. -/
theorem guard_member (h : d.Depicts n) {id m : Nat} {c : Composite}
    (hc : d.composites[id]? = some c) (hm : m ∈ c.members) :
    c.guard = none ∧ d.graph.guard id = none ∧ n.graph.guard m = none ∨
      ∃ g ∈ n.guards, ∃ g' ∈ n.guards, g.label = g'.label ∧ c.guard.isSome ∧
        d.graph.guard id = some g ∧ n.graph.guard m = some g' := by
  have kind := (h.composites id c hc).1.kind
  simp only [graph, guardAt, hc, Option.bind_some]
  cases hg : c.guard with
  | none =>
    rw [hg] at kind
    exact .inl ⟨rfl, rfl, kind m hm⟩
  | some i =>
    rw [hg] at kind
    obtain ⟨own, here, labels⟩ := kind
    obtain ⟨guard, hguard, same⟩ := labels m hm
    obtain ⟨j, _, hj⟩ := Option.bind_eq_some_iff.mp hguard
    refine .inr ⟨own, Array.mem_of_getElem? here, guard, Array.mem_of_getElem? hj, same.symm, rfl,
      ?_, hguard⟩
    rw [h.guards, Option.bind_some, here]

/-- **Entering a composite is entering a member of it.** -/
theorem enters_iff (h : d.Depicts n) (hp : n.Plain) (faithful : n.Faithful) {id m : Nat}
    {c : Composite} (hc : d.composites[id]? = some c) (hm : m ∈ c.members) {p q : Nat} :
    d.graph.Enters text id p q ↔ n.graph.Enters text m p q := by
  rcases h.guard_member hc hm with ⟨_, free, free'⟩ | ⟨g, hg, g', hg', label, _, here, here'⟩
  · rw [Graph.enters_of_guard_none free, Graph.enters_of_guard_none free']
  · rw [Graph.enters_of_guard here, Graph.enters_of_guard here']
    constructor
    · exact (faithful g hg g' hg' label).spans (hp g hg) (hp g' hg')
    · exact (faithful g' hg' g hg label.symm).spans (hp g' hg') (hp g hg)

/-- Open edges are taken anywhere. -/
theorem run_spread {x : Nat × Nat} {members : List Nat} {s p : Nat}
    (here : ∀ m ∈ members, n.graph.Run text x (m, p)) (h : n.graph.Spread members s) :
    n.graph.Run text x (s, p) := by
  obtain ⟨m, hm, edges⟩ := h
  induction edges with
  | refl => exact here m hm
  | tail _ step ih => exact ih.tail ⟨step.1, (Graph.enters_of_guard_none step.2).mpr rfl⟩

/-- **Where composites come, all of their members come.** -/
theorem run_members (h : d.Depicts n) (hp : n.Plain) (faithful : n.Faithful) {x : Nat × Nat}
    (run : d.graph.Run text (Dfa.root, 0) x) : ∀ {c : Composite}, d.composites[x.1]? = some c →
    ∀ m ∈ c.members, n.graph.Run text (n.start, 0) (m, x.2) := by
  induction run with
  | refl =>
    intro c hc m hm
    obtain ⟨c', hc', only⟩ := h.root
    rw [hc] at hc'
    cases hc'
    rw [(only m).mp hm]
    exact .refl
  | @tail y z _ step ih =>
    intro c' hc' t ht
    obtain ⟨edge, enters⟩ := step
    obtain ⟨c, hc, edge⟩ := exists_edge (mem_targets.mp edge).1
    obtain ⟨label, _, same, grouped⟩ := (h.composites y.1 c hc).2.sound z.1 edge
    rw [hc'] at same
    cases same
    obtain ⟨⟨s, near, edge'⟩, _⟩ := (grouped t).mp ht
    exact (run_spread (ih hc) near).tail ⟨edge', (h.enters_iff hp faithful hc' ht).mp enters⟩

/-- **Where the automaton comes**, it comes by open edges from a member of a composite that comes
there. -/
theorem run_composite (h : d.Depicts n) (hp : n.Plain) (faithful : n.Faithful) {x : Nat × Nat}
    (run : n.graph.Run text (n.start, 0) x) : ∃ id c, d.graph.Run text (Dfa.root, 0) (id, x.2) ∧
      d.composites[id]? = some c ∧ n.graph.Spread c.members x.1 := by
  induction run with
  | refl =>
    obtain ⟨c, hc, only⟩ := h.root
    exact ⟨Dfa.root, c, .refl, hc, n.start, (only n.start).mpr rfl, .refl⟩
  | @tail y z _ step ih =>
    obtain ⟨edge, enters⟩ := step
    obtain ⟨id, c, run, hc, near⟩ := ih
    cases hg : n.graph.guard z.1 with
    | none =>
      rw [(Graph.enters_of_guard_none hg).mp enters]
      obtain ⟨m, hm, edges⟩ := near
      exact ⟨id, c, run, hc, m, hm, edges.tail ⟨edge, hg⟩⟩
    | some guard =>
      have grouped : n.Grouped c.members (some guard.label) z.1 :=
        ⟨⟨y.1, near, edge⟩, by simp [Nfa.Labels, hg]⟩
      obtain ⟨t, ht, c', hc', same⟩ := (h.composites id c hc).2.complete _ _ grouped
      have member := (same z.1).mpr grouped
      have guarded : (d.graph.guard t).isSome := by
        rcases h.guard_member hc' member with ⟨_, _, free⟩ | ⟨_, _, _, _, _, _, here, _⟩
        · rw [hg] at free
          cases free
        · simp [here]
      refine ⟨t, c', run.tail ⟨mem_targets.mpr ⟨mem_edgesOf hc ht, guarded⟩, ?_⟩, hc', z.1, member,
        .refl⟩
      exact (h.enters_iff hp faithful hc' member).mpr enters

/-- **Composites accept what the automaton accepts.** -/
theorem leads_iff (h : d.Depicts n) (hp : n.Plain) (faithful : n.Faithful) (text : Array Char) :
    d.graph.Leads text d.Final [Dfa.root] 0 ↔ n.Accepts text := by
  simp only [Graph.Leads, List.mem_singleton, exists_eq_left]
  constructor
  · rintro ⟨id, ⟨c, hc, accepts⟩, run⟩
    have members := h.run_members hp faithful run hc
    rcases accepts with accepting | ⟨t, ht, c', hc', free, accepting⟩
    · exact members _ ((h.composites id c hc).1.accepting.mp accepting)
    · have member := (h.composites t c' hc').1.accepting.mp accepting
      obtain ⟨label, _, same, grouped⟩ := (h.composites id c hc).2.sound t ht
      rw [hc'] at same
      cases same
      obtain ⟨⟨s, near, edge⟩, _⟩ := (grouped n.accept).mp member
      have open_ : n.graph.guard n.accept = none := by
        rcases h.guard_member hc' member with ⟨_, _, free'⟩ | ⟨_, _, _, _, _, some, _, _⟩
        · exact free'
        · simp [free] at some
      exact (run_spread members near).tail ⟨edge, (Graph.enters_of_guard_none open_).mpr rfl⟩
  · intro run
    obtain ⟨id, c, run, hc, m, hm, edges⟩ := h.run_composite hp faithful run
    refine ⟨id, ⟨c, hc, ?_⟩, run⟩
    simp only at edges
    rcases Relation.ReflTransGen.cases_tail edges with same | ⟨s, edges, edge, free⟩
    · exact .inl ((h.composites id c hc).1.accepting.mpr (same ▸ hm))
    · have grouped : n.Grouped c.members none n.accept :=
        ⟨⟨s, ⟨m, hm, edges⟩, edge⟩, by simp [Nfa.Labels, free]⟩
      obtain ⟨t, ht, c', hc', same⟩ := (h.composites id c hc).2.complete _ _ grouped
      have member := (same n.accept).mpr grouped
      refine .inr ⟨t, ht, c', hc', ?_, (h.composites t c' hc').1.accepting.mpr member⟩
      rcases h.guard_member hc' member with ⟨none, _, _⟩ | ⟨_, _, _, _, _, _, _, some⟩
      · exact none
      · rw [free] at some
        cases some

/-- Stepping the composites decides what the automaton accepts. -/
theorem isMatch_accepts (h : d.Depicts n) (hp : n.Plain) (faithful : n.Faithful)
    (text : Array Char) :
    ∃ found, d.isMatch text = .ok found ∧ (found = true ↔ n.Accepts text) := by
  obtain ⟨found, hf, leads⟩ := Dfa.isMatch_leads h.valid (h.plain hp) text
  exact ⟨found, hf, leads.trans (h.leads_iff hp faithful text)⟩

end Depicts

/-- The subset construction comes to an end, and its composites decide what the automaton
accepts. -/
theorem ofNfa_accepts (v : n.Valid) (free : n.graph.guard n.start = none) (hp : n.Plain)
    (faithful : n.Faithful) (few : Few n.Composes words) :
    ∃ d, Dfa.ofNfa n = .ok d ∧ d.Valid ∧ ∀ text, ∃ found,
      d.isMatch text = .ok found ∧ (found = true ↔ n.Accepts text) := by
  obtain ⟨d, hd, depicts⟩ := ofNfa_depicts v free few
  exact ⟨d, hd, depicts.valid, depicts.isMatch_accepts hp faithful⟩

end Dfa

/-- **Composites match what their automaton matches.** The subset construction of an automaton with
valid ids, a start without a guard and plain guards of which those of one label behave alike comes
to an end, if there are ids for its composites, and on every text both simulations come to the same
verdict. -/
theorem composites_match_automaton {n : Nfa} (v : n.Valid) (free : n.graph.guard n.start = none)
    (hp : n.Plain) (faithful : n.Faithful) (few : Few n.Composes words) :
    ∃ d, Dfa.ofNfa n = .ok d ∧
      ∀ text, ∃ found, d.isMatch text = .ok found ∧ n.isMatch text = .ok found := by
  obtain ⟨d, hd, _, composites⟩ := Dfa.ofNfa_accepts v free hp faithful few
  refine ⟨d, hd, fun text => ?_⟩
  obtain ⟨found, hf, accepts⟩ := composites text
  obtain ⟨found', hf', accepts'⟩ := Nfa.isMatch_accepts v hp text
  have same : found = found' := Bool.eq_iff_iff.mpr (accepts.trans accepts'.symm)
  exact ⟨found, hf, same ▸ hf'⟩

/-- An automaton that accepts where it starts. An assertion and free edges lead round in circles,
and two guards have one label. -/
def circles : Nfa where
  arena := ⟨#[⟨none, [1, 2, 4]⟩, ⟨some 0, [0, 2]⟩, ⟨some 1, [3]⟩, ⟨some 2, [0, 3]⟩, ⟨none, [0, 4]⟩]⟩
  guards := #[.item ⟨.assertion .lineBegin, "^"⟩, .item ⟨.literal 'a', "a"⟩,
    .item ⟨.literal 'a', "a"⟩]
  start := 0
  accept := 0

theorem circles_valid : circles.Valid := by decide

theorem circles_match : circles.Valid ∧ circles.graph.guard circles.start = none ∧
    circles.Plain ∧ circles.Faithful ∧ Few circles.Composes words ∧
      ∃ d, Dfa.ofNfa circles = .ok d ∧
        ∀ text, ∃ found, d.isMatch text = .ok found ∧ circles.isMatch text = .ok found :=
  have plain : circles.Plain := by unfold Nfa.Plain; decide
  have faithful : circles.Faithful := Nfa.faithful_of_labels (by decide)
  have few : Few circles.Composes words := few_composes circles_valid (by decide)
  ⟨circles_valid, rfl, plain, faithful, few,
    composites_match_automaton circles_valid rfl plain faithful few⟩

end WholeMatch
