import Mathlib.Data.Fintype.Card
import Mathlib.Data.Nat.ChineseRemainder
import WholeMatch.Proofs.Building
import WholeMatch.Proofs.Composites

namespace WholeMatch

/-- A composite is entered through a guard of the label. -/
def Dfa.EnteredBy (d : Dfa) (t : Nat) (label : String) : Prop :=
  ∃ guard, d.guardAt t = some guard ∧ guard.label = label

/-- A composite is entered without a guard. -/
def Dfa.EnteredFreely (d : Dfa) (t : Nat) : Prop :=
  ∃ c, d.composites[t]? = some c ∧ c.guard = none

/-- What an automaton says of one of its composites. -/
structure Determined (n : Nfa) (d : Dfa) (c : Composite) : Prop where
  filled : c.members ≠ []
  ascending : c.members.Pairwise (· < ·)
  accepting : c.accepting = true ↔ n.accept ∈ c.members
  /-- The states entered next under a label, if any, are those of one target, which has a guard of
  the label. -/
  labelled : ∀ label, (∃ s, n.Grouped c.members (some label) s) →
    ∃ t ∈ c.edges, HasMembers d.composites t (n.Grouped c.members (some label)) ∧
      d.EnteredBy t label ∧
      ∀ t' ∈ c.edges, HasMembers d.composites t' (n.Grouped c.members (some label)) ∨
        d.EnteredBy t' label → t' = t
  /-- There is an edge without a guard just when the accepting state is entered next, freely. -/
  concluding : (∃ t ∈ c.edges, d.EnteredFreely t) ↔
    n.graph.Beside (n.graph.Spread c.members) n.accept ∧ n.graph.guard n.accept = none
  /-- There are no other edges. -/
  only : ∀ t ∈ c.edges,
    (∃ label, (∃ s, n.Grouped c.members (some label) s) ∧ d.EnteredBy t label ∧
      HasMembers d.composites t (n.Grouped c.members (some label))) ∨
    d.EnteredFreely t ∧ HasMembers d.composites t (· = n.accept)
  once : c.edges.Nodup

/-- What an automaton says of its composites. -/
structure Dfa.Determines (d : Dfa) (n : Nfa) : Prop where
  guards : d.guards = n.guards
  root : ∃ c, d.composites[Dfa.root]? = some c ∧ c.members = [n.start] ∧ c.guard = none
  linked : ∀ i, i < d.size → Relation.ReflTransGen (Linked d.composites) Dfa.root i
  distinct : ∀ (i j : Nat) c c', d.composites[i]? = some c → d.composites[j]? = some c' →
    c.members = c'.members → i = j
  composites : ∀ (i : Nat) c, d.composites[i]? = some c → Determined n d c

/-- Ascending lists with the same elements are the same. -/
theorem eq_of_ascending {l l' : List Nat} (h : l.Pairwise (· < ·)) (h' : l'.Pairwise (· < ·))
    (same : ∀ x, x ∈ l ↔ x ∈ l') : l = l' := by
  have perm : l.Perm l' :=
    (List.perm_ext_iff_of_nodup (h.imp Nat.ne_of_lt) (h'.imp Nat.ne_of_lt)).mpr same
  exact perm.eq_of_pairwise (fun a b _ _ lt gt => absurd gt (Nat.lt_asymm lt)) h h'

namespace Dfa.Depicts

variable {d : Dfa} {n : Nfa} {t t' : Nat} {P : Nat → Prop} {label : String} {members : List Nat}

/-- A set of states has one composite at most. -/
theorem unique (h : d.Depicts n) (ht : HasMembers d.composites t P)
    (ht' : HasMembers d.composites t' P) : t' = t := by
  obtain ⟨c, hc, same⟩ := ht
  obtain ⟨c', hc', same'⟩ := ht'
  apply h.distinct t' t c' c hc' hc
  exact eq_of_ascending (h.composites t' c' hc').1.ascending (h.composites t c hc).1.ascending
    fun x => (same' x).trans (same x).symm

/-- A composite is entered as its members are. -/
theorem entered_member (h : d.Depicts n) {c : Composite} (hc : d.composites[t]? = some c) {s : Nat}
    (hs : s ∈ c.members) :
    d.EnteredFreely t ∧ n.graph.guard s = none ∨
      ∃ guard, d.EnteredBy t guard.label ∧ n.graph.guard s = some guard := by
  rcases h.guard_member hc hs with ⟨none, _, free⟩ | ⟨g, _, g', _, same, _, here, here'⟩
  · exact .inl ⟨⟨c, hc, none⟩, free⟩
  · exact .inr ⟨g', ⟨g, here, same⟩, here'⟩

theorem not_freely (by_ : d.EnteredBy t label) : ¬ d.EnteredFreely t := by
  rintro ⟨c, hc, none⟩
  obtain ⟨guard, hg, _⟩ := by_
  simp [guardAt, hc, none] at hg

theorem label_eq {label' : String} (by_ : d.EnteredBy t label) (by' : d.EnteredBy t label') :
    label = label' := by
  obtain ⟨guard, hg, rfl⟩ := by_
  obtain ⟨guard', hg', rfl⟩ := by'
  rw [hg] at hg'
  cases hg'
  rfl

/-- What is entered under a label makes a composite that is entered under it. -/
theorem entered_labelled (h : d.Depicts n)
    (ht : HasMembers d.composites t (n.Grouped members (some label))) {s : Nat}
    (hs : n.Grouped members (some label) s) : d.EnteredBy t label := by
  obtain ⟨c, hc, same⟩ := ht
  have labels := hs.2
  unfold Nfa.Labels at labels
  rcases h.entered_member hc ((same s).mpr hs) with ⟨_, free⟩ | ⟨guard, by_, here⟩
  · rw [free] at labels
    cases labels.1
  · rw [here] at labels
    cases labels
    exact by_

/-- What is entered without a label is the accepting state, freely. -/
theorem entered_unlabelled (h : d.Depicts n)
    (ht : HasMembers d.composites t (n.Grouped members none)) {s : Nat}
    (hs : n.Grouped members none s) :
    d.EnteredFreely t ∧ HasMembers d.composites t (· = n.accept) := by
  have accepts : ∀ x, n.Grouped members none x → x = n.accept ∧ n.graph.guard x = none := by
    intro x hx
    have labels := hx.2
    unfold Nfa.Labels at labels
    split at labels
    · cases labels
    · next free => exact ⟨labels.2, free⟩
  obtain ⟨rfl, free⟩ := accepts s hs
  obtain ⟨c, hc, same⟩ := ht
  constructor
  · rcases h.entered_member hc ((same _).mpr hs) with ⟨freely, _⟩ | ⟨guard, _, here⟩
    · exact freely
    · rw [free] at here
      cases here
  · refine ⟨c, hc, fun x => (same x).trans ⟨fun hx => (accepts x hx).1, ?_⟩⟩
    rintro rfl
    exact hs

/-- A target is that of a label, or that of the accepting state. -/
theorem target_cases (h : d.Depicts n) {i : Nat} {c : Composite} (hc : d.composites[i]? = some c)
    (ht : t ∈ c.edges) :
    (∃ label, (∃ s, n.Grouped c.members (some label) s) ∧ d.EnteredBy t label ∧
      HasMembers d.composites t (n.Grouped c.members (some label))) ∨
    d.EnteredFreely t ∧ HasMembers d.composites t (· = n.accept) ∧
      n.Grouped c.members none n.accept := by
  obtain ⟨label, c', hc', same⟩ := (h.composites i c hc).2.sound t ht
  obtain ⟨s, hs⟩ := List.exists_mem_of_ne_nil _ (h.composites t c' hc').1.filled
  have grouped := (same s).mp hs
  cases label with
  | some label =>
    left
    exact ⟨label, ⟨s, grouped⟩, h.entered_labelled ⟨c', hc', same⟩ grouped, c', hc', same⟩
  | none =>
    right
    obtain ⟨freely, accept⟩ := h.entered_unlabelled ⟨c', hc', same⟩ grouped
    obtain ⟨c'', hc'', only⟩ := accept
    rw [hc'] at hc''
    cases hc''
    exact ⟨freely, ⟨c', hc', only⟩, (same _).mp ((only _).mpr rfl)⟩

theorem determined (h : d.Depicts n) {i : Nat} {c : Composite} (hc : d.composites[i]? = some c) :
    Determined n d c := by
  obtain ⟨proper, complete⟩ := h.composites i c hc
  constructor
  case filled => exact proper.filled
  case ascending => exact proper.ascending
  case accepting => exact proper.accepting
  case once => exact complete.once
  case labelled =>
    rintro label ⟨s, hs⟩
    obtain ⟨t, ht, members⟩ := complete.complete _ s hs
    refine ⟨t, ht, members, h.entered_labelled members hs, fun t' ht' like => ?_⟩
    rcases like with members' | by_
    · exact h.unique members members'
    · rcases h.target_cases hc ht' with ⟨label', _, by', members'⟩ | ⟨freely, _⟩
      · obtain rfl := label_eq by_ by'
        exact h.unique members members'
      · exact absurd freely (not_freely by_)
  case concluding =>
    constructor
    · rintro ⟨t, ht, freely⟩
      rcases h.target_cases hc ht with ⟨_, _, by_, _⟩ | ⟨_, _, beside, labels⟩
      · exact absurd freely (not_freely by_)
      · refine ⟨beside, ?_⟩
        unfold Nfa.Labels at labels
        split at labels
        · cases labels
        · assumption
    · rintro ⟨beside, free⟩
      have grouped : n.Grouped c.members none n.accept := ⟨beside, by simp [Nfa.Labels, free]⟩
      obtain ⟨t, ht, members⟩ := complete.complete _ _ grouped
      exact ⟨t, ht, (h.entered_unlabelled members grouped).1⟩
  case only =>
    intro t ht
    exact (h.target_cases hc ht).imp_right fun both => ⟨both.1, both.2.1⟩

end Dfa.Depicts

/-- **An automaton determines its composites.** The subset construction of an automaton with valid
ids and a start without a guard comes to an end, if there are ids for its composites. The root holds
the start, every composite can be reached from it, no two have the same members, and every one has
the edges that the automaton says it has. -/
theorem ofNfa_determines {n : Nfa} (v : n.Valid) (free : n.graph.guard n.start = none)
    (few : Few n.Composes words) : ∃ d, Dfa.ofNfa n = .ok d ∧ d.Determines n := by
  obtain ⟨d, hd, h⟩ := ofNfa_depicts v free few
  obtain ⟨c, hc, only⟩ := h.root
  refine ⟨d, hd, h.guards, ⟨c, hc, ?_, ?_⟩, h.linked, h.distinct, fun i c hc => h.determined hc⟩
  · apply eq_of_ascending (h.composites _ c hc).1.ascending (List.pairwise_singleton _ _)
    intro x
    rw [only, List.mem_singleton]
  · rcases h.guard_member hc ((only n.start).mpr rfl) with ⟨none, _⟩ | ⟨_, _, _, _, _, _, _, here⟩
    · exact none
    · rw [free] at here
      cases here

/-- An automaton with two composites of one hash: that of the states 0 and 2, and that of 2 alone.
Free edges lead round in circles, and two states are entered under one label through guards of
their own. -/
def colliding : Nfa where
  arena := ⟨#[⟨some 0, [2, 3]⟩, ⟨none, [1, 4]⟩, ⟨some 1, [5, 2, 3]⟩, ⟨none, [5, 3]⟩,
    ⟨none, [0, 1, 2]⟩, ⟨some 2, [3, 0]⟩]⟩
  guards := #[.item ⟨.literal 'a', "a"⟩, .item ⟨.literal 'a', "a"⟩,
    .item ⟨.assertion .boundary, "\\b"⟩]
  start := 1
  accept := 3

theorem colliding_valid : colliding.Valid := by decide

theorem ofNfa_determines_colliding : colliding.Valid ∧
    colliding.graph.guard colliding.start = none ∧ Few colliding.Composes words ∧
    ∃ d, Dfa.ofNfa colliding = .ok d ∧ d.Determines colliding :=
  have few : Few colliding.Composes words := few_composes colliding_valid (by decide)
  ⟨colliding_valid, rfl, few, ofNfa_determines colliding_valid rfl few⟩

example : canonicalHash [0, 2] = canonicalHash [2] := by decide

example : (Dfa.ofNfa colliding).map (fun d => d.composites.toList.map (·.members)) =
    .ok [[1], [0, 2], [5], [2], [3], [0]] := by cbv

/-- An edge leads to a word, and so a composite whose place is none is not reached by edges. -/
theorem Dfa.Determines.size_le {n : Nfa} {d : Dfa} (hd : Dfa.ofNfa n = .ok d)
    (h : d.Determines n) : d.size ≤ words := by
  by_contra many
  obtain ⟨_, _, bounded⟩ := ofNfa_bounded hd
  rcases Relation.ReflTransGen.cases_tail (h.linked words (by omega)) with same | ⟨i, _, edge⟩
  · cases same
  · obtain ⟨c, hc, ht⟩ := edge
    exact absurd ((bounded c (Array.mem_of_getElem? hc)).words _ ht) (Nat.lt_irrefl _)

/-- How many places ten wheels have. -/
def wheelSizes : List Nat := [2, 3, 5, 7, 11, 13, 17, 19, 23, 29]

def wheelSize (j : Nat) : Nat := wheelSizes.getD j 1

/-- From each place of a wheel a letter leads on to the next, round and round. State `32 * j + i`
is the place `i` of the wheel `j`, and the last state leads to the first place of every wheel. -/
def wheels : Nfa where
  arena := ⟨.ofFn (n := 321) fun id =>
    if id.val = 320 then ⟨none, (List.range 10).map (32 * ·)⟩
    else ⟨some 0, [32 * (id.val / 32) + (id.val % 32 + 1) % wheelSize (id.val / 32)]⟩⟩
  guards := #[.item ⟨.literal 'a', "a"⟩]
  start := 320
  accept := 320

/-- Where the wheels stand after so many turns. -/
def Turned (k s : Nat) : Prop := ∃ j < 10, s = 32 * j + k % wheelSize j

theorem wheelSize_pos {j : Nat} (h : j < 10) : 0 < wheelSize j ∧ wheelSize j ≤ 32 := by
  revert j
  decide

theorem wheels_start : wheels.graph.targets 320 = (List.range 10).map (32 * ·) := by
  simp [wheels, Nfa.graph, graphOf, Arena.targets]

theorem wheels_next {s : Nat} (h : s < 320) :
    wheels.graph.targets s = [32 * (s / 32) + (s % 32 + 1) % wheelSize (s / 32)] := by
  have room : s < 321 := by omega
  have other : s ≠ 320 := by omega
  simp [wheels, Nfa.graph, graphOf, Arena.targets, room, other]

theorem wheels_guard {s : Nat} (h : s < 320) :
    wheels.graph.guard s = some (.item ⟨.literal 'a', "a"⟩) := by
  have room : s < 321 := by omega
  have other : s ≠ 320 := by omega
  simp [wheels, Nfa.graph, graphOf, Arena.mark, room, other]

theorem Turned.lt {k s : Nat} (h : Turned k s) : s < 320 := by
  obtain ⟨j, hj, rfl⟩ := h
  obtain ⟨some, small⟩ := wheelSize_pos hj
  have := Nat.mod_lt k some
  omega

theorem turned_zero {s : Nat} : Turned 0 s ↔ s ∈ (List.range 10).map (32 * ·) := by
  simp [Turned, eq_comm]

/-- An edge leads to where a turn leads. -/
theorem turned_succ {k t : Nat} :
    Turned (k + 1) t ↔ ∃ s, Turned k s ∧ t ∈ wheels.graph.targets s := by
  have next : ∀ j < 10, wheels.graph.targets (32 * j + k % wheelSize j) =
      [32 * j + (k + 1) % wheelSize j] := by
    intro j hj
    obtain ⟨some, small⟩ := wheelSize_pos hj
    have inside := Nat.mod_lt k some
    have place : (32 * j + k % wheelSize j) % 32 = k % wheelSize j := by omega
    have wheel : (32 * j + k % wheelSize j) / 32 = j := by omega
    rw [wheels_next (Turned.lt ⟨j, hj, rfl⟩), wheel, place, Nat.mod_add_mod]
  constructor
  · rintro ⟨j, hj, rfl⟩
    exact ⟨_, ⟨j, hj, rfl⟩, by rw [next j hj]; exact List.mem_singleton.mpr rfl⟩
  · rintro ⟨s, ⟨j, hj, rfl⟩, edge⟩
    rw [next j hj] at edge
    exact ⟨j, hj, List.mem_singleton.mp edge⟩

theorem wheels_target {s t : Nat} (edge : t ∈ wheels.graph.targets s) : t < 320 := by
  rcases Nat.lt_trichotomy s 320 with lt | rfl | gt
  · rw [wheels_next lt, List.mem_singleton] at edge
    have pos : 0 < wheelSize (s / 32) := (wheelSize_pos (by omega)).1
    have small := (wheelSize_pos (j := s / 32) (by omega)).2
    have := Nat.mod_lt (s % 32 + 1) pos
    omega
  · rw [wheels_start] at edge
    exact (turned_zero.mpr edge).lt
  · have room : ¬ s < 321 := by omega
    simp [wheels, Nfa.graph, graphOf, Arena.targets, room] at edge

theorem wheels_valid : wheels.Valid where
  start := by simp [wheels, Nfa.size, Arena.size]
  accept := by simp [wheels, Nfa.size, Arena.size]
  edges s t edge := by
    have := wheels_target edge
    simp only [wheels, Nfa.size, Arena.size, Array.size_ofFn]
    omega
  guards s g hm := by
    by_cases lt : s < 321
    · by_cases last : s = 320
      · simp [wheels, Arena.mark, last] at hm
      · simp [wheels, Arena.mark, lt, last] at hm
        simp [wheels, ← hm]
    · simp [wheels, Arena.mark, lt] at hm

theorem wheels_free : wheels.graph.guard wheels.start = none := by
  simp [wheels, Nfa.graph, graphOf, Arena.mark]

/-- Every edge reads a letter. -/
theorem wheels_grouped {members : List Nat} {t : Nat} :
    wheels.Grouped members (some "a") t ↔ ∃ s ∈ members, t ∈ wheels.graph.targets s := by
  have stays : ∀ s, wheels.graph.Spread members s ↔ s ∈ members := by
    intro s
    constructor
    · rintro ⟨m, hm, path⟩
      cases path with
      | refl => exact hm
      | tail _ step =>
        have guarded := wheels_guard (wheels_target step.1)
        rw [step.2] at guarded
        cases guarded
    · exact fun hs => ⟨s, hs, .refl⟩
  constructor
  · rintro ⟨⟨s, near, edge⟩, _⟩
    exact ⟨s, (stays s).mp near, edge⟩
  · rintro ⟨s, hs, edge⟩
    refine ⟨⟨s, (stays s).mpr hs, edge⟩, ?_⟩
    rw [Nfa.Labels, wheels_guard (wheels_target edge)]
    rfl

/-- What the letter leads to from a composite has a composite. -/
theorem turned_onward {d : Dfa} (h : d.Determines wheels) {i k : Nat} {c : Composite}
    (hc : d.composites[i]? = some c)
    (grouped : ∀ s, wheels.Grouped c.members (some "a") s ↔ Turned k s) :
    ∃ t, HasMembers d.composites t (Turned k) := by
  have first : Turned k (32 * 0 + k % wheelSize 0) := ⟨0, by decide, rfl⟩
  obtain ⟨t, _, ⟨c', hc', same⟩, _⟩ :=
    (h.composites i c hc).labelled "a" ⟨_, (grouped _).mpr first⟩
  exact ⟨t, c', hc', fun s => (same s).trans (grouped s)⟩

/-- For every number of turns there is a composite. -/
theorem exists_turned {d : Dfa} (h : d.Determines wheels) (k : Nat) :
    ∃ t, HasMembers d.composites t (Turned k) := by
  induction k with
  | zero =>
    obtain ⟨c, hc, members, _⟩ := h.root
    apply turned_onward h hc
    intro s
    rw [wheels_grouped, members, turned_zero, ← wheels_start]
    simp [wheels]
  | succ k ih =>
    obtain ⟨t, c, hc, members⟩ := ih
    apply turned_onward h hc
    intro s
    simp only [wheels_grouped, turned_succ, members]

/-- The wheels come round together for the first time after the product of their sizes. -/
theorem eq_of_turned {k k' : Nat} (h : k < wheelSizes.prod) (h' : k' < wheelSizes.prod)
    (same : ∀ s, Turned k s ↔ Turned k' s) : k = k' := by
  have coprime : wheelSizes.Pairwise Nat.Coprime := by decide
  have turn : ∀ j < 10, k % wheelSize j = k' % wheelSize j := by
    intro j hj
    obtain ⟨j', hj', equal⟩ := (same _).mp ⟨j, hj, rfl⟩
    obtain ⟨some, small⟩ := wheelSize_pos hj
    obtain ⟨some', small'⟩ := wheelSize_pos hj'
    have := Nat.mod_lt k some
    have := Nat.mod_lt k' some'
    obtain rfl : j = j' := by omega
    omega
  have all : k ≡ k' [MOD wheelSizes.prod] := by
    rw [Nat.modEq_list_prod_iff coprime]
    intro j
    have := turn j j.isLt
    simpa [Nat.ModEq, wheelSize] using this
  exact all.eq_of_lt_of_lt h h'

/-- Ids are words, and the wheels have more composites than there are ids. -/
theorem wheels_not_determined : wheels.Valid ∧ wheels.graph.guard wheels.start = none ∧
    (∀ g ∈ wheels.guards, ∀ g' ∈ wheels.guards, g.label = g'.label → g = g') ∧
    ¬ ∃ d, Dfa.ofNfa wheels = .ok d ∧ d.Determines wheels := by
  refine ⟨wheels_valid, wheels_free, by simp [wheels], ?_⟩
  rintro ⟨d, hd, h⟩
  have size := h.size_le hd
  choose t ht using exists_turned h
  have inside : ∀ k, t k < d.size := fun k => by
    obtain ⟨c, hc, _⟩ := ht k
    exact (Array.getElem?_eq_some_iff.mp hc).1
  have apart : Function.Injective
      fun k : Fin wheelSizes.prod => (⟨t k, inside k⟩ : Fin d.size) := by
    intro k k' same
    have equal : t k = t k' := congrArg Fin.val same
    apply Fin.ext (eq_of_turned k.isLt k'.isLt fun s => ?_)
    obtain ⟨c, hc, members⟩ := ht k
    obtain ⟨c', hc', members'⟩ := ht k'
    rw [equal, hc'] at hc
    cases hc
    exact (members s).symm.trans (members' s)
  have many := Fintype.card_le_of_injective _ apart
  rw [Fintype.card_fin, Fintype.card_fin] at many
  have : wheelSizes.prod = 6469693230 := by decide
  rw [words] at size
  omega

end WholeMatch
