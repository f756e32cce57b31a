import Mathlib.Logic.Relation
import WholeMatch.Nfa.Basic
import WholeMatch.Proofs.Arenas
import WholeMatch.Proofs.Spans

namespace WholeMatch

/-- Where edges lead, and the guards tested on entering. -/
structure Graph where
  targets : Nat → List Nat
  guard : Nat → Option Guard

namespace Graph

/-- A state is entered at `p`, with `q` the place behind what its guard read. -/
def Enters (g : Graph) (text : Array Char) (id p q : Nat) : Prop :=
  match g.guard id with
  | none => q = p
  | some guard => guard.Spans text p q

/-- One edge of a run. -/
def Step (g : Graph) (text : Array Char) (x y : Nat × Nat) : Prop :=
  y.1 ∈ g.targets x.1 ∧ g.Enters text y.1 x.2 y.2

def Run (g : Graph) (text : Array Char) : Nat × Nat → Nat × Nat → Prop :=
  Relation.ReflTransGen (g.Step text)

/-- An edge that is taken at `p` without reading. -/
def Free (g : Graph) (text : Array Char) (p : Nat) (s t : Nat) : Prop :=
  t ∈ g.targets s ∧ g.Enters text t p p

/-- Reachable by edges, whatever their guards. -/
def Reach (g : Graph) : Nat → Nat → Prop :=
  Relation.ReflTransGen fun s t => t ∈ g.targets s

variable {g : Graph} {text : Array Char}

theorem Run.reach {x y : Nat × Nat} (h : g.Run text x y) : g.Reach x.1 y.1 := by
  induction h with
  | refl => exact .refl
  | tail _ step ih => exact ih.tail step.1

theorem enters_of_guard_none {id p q : Nat} (h : g.guard id = none) :
    g.Enters text id p q ↔ q = p := by
  simp [Enters, h]

theorem enters_of_guard {guard : Guard} {id p q : Nat} (h : g.guard id = some guard) :
    g.Enters text id p q ↔ guard.Spans text p q := by
  simp [Enters, h]

/-- Entering a state leads to the same place, or to the one behind it. -/
theorem Enters.end_eq {id p q : Nat} (h : g.Enters text id p q) : q = p ∨ q = p + 1 := by
  unfold Enters at h
  split at h
  · exact .inl h
  · have := h.end_eq
    split at this
    · exact .inl this
    · exact .inr this

theorem Enters.at_end {id q : Nat} (h : g.Enters text id text.size q) : q = text.size := by
  unfold Enters at h
  split at h
  · exact h
  · exact h.at_end

/-- A run either reads nothing or goes on from the first character it reads. -/
theorem Run.split {x y : Nat × Nat} (h : g.Run text x y) :
    y.2 = x.2 ∧ Relation.ReflTransGen (g.Free text x.2) x.1 y.1 ∨
      ∃ s t, Relation.ReflTransGen (g.Free text x.2) x.1 s ∧ t ∈ g.targets s ∧
        g.Enters text t x.2 (x.2 + 1) ∧ g.Run text (t, x.2 + 1) y := by
  induction h using Relation.ReflTransGen.head_induction_on with
  | refl => exact .inl ⟨rfl, .refl⟩
  | @head a c step run ih =>
    obtain ⟨id, p⟩ := a
    obtain ⟨t, q⟩ := c
    obtain ⟨edge, enters⟩ := step
    rcases enters.end_eq with same | moved
    · simp only at same
      subst same
      rcases ih with ⟨stays, frees⟩ | ⟨s, t', frees, edge', enters', onward⟩
      · exact .inl ⟨stays, .head ⟨edge, enters⟩ frees⟩
      · exact .inr ⟨s, t', .head ⟨edge, enters⟩ frees, edge', enters', onward⟩
    · simp only at moved
      subst moved
      exact .inr ⟨id, t, .refl, edge, enters, run⟩

theorem Run.free {p s t : Nat} (h : Relation.ReflTransGen (g.Free text p) s t) :
    g.Run text (s, p) (t, p) := by
  induction h with
  | refl => exact .refl
  | tail _ step ih => exact ih.tail ⟨step.1, step.2⟩

/-- The targets of the states that are near. -/
def Beside (g : Graph) (Near : Nat → Prop) (t : Nat) : Prop := ∃ s, Near s ∧ t ∈ g.targets s

/-- The states that one of the listed can come to without reading. -/
def Around (g : Graph) (text : Array Char) (p : Nat) (ids : List Nat) (s : Nat) : Prop :=
  ∃ id ∈ ids, Relation.ReflTransGen (g.Free text p) id s

/-- A run goes on from a frontier to a final state at the end of the text. -/
def Leads (g : Graph) (text : Array Char) (Final : Nat → Prop) (ids : List Nat) (p : Nat) : Prop :=
  ∃ id ∈ ids, ∃ t, Final t ∧ g.Run text (id, p) (t, text.size)

variable {Final : Nat → Prop} {ids next : List Nat} {p : Nat}

theorem leads_at_end :
    g.Leads text Final ids text.size ↔ ∃ t, Final t ∧ g.Around text text.size ids t := by
  constructor
  · rintro ⟨id, hid, t, final, run⟩
    rcases run.split with ⟨_, frees⟩ | ⟨s, t, _, _, enters, _⟩
    · exact ⟨t, final, id, hid, frees⟩
    · have := enters.at_end
      omega
  · rintro ⟨t, final, id, hid, frees⟩
    exact ⟨id, hid, t, final, Run.free frees⟩

/-- Before the end of the text a run reads the next character, into the next frontier. -/
theorem leads_next (hp : p < text.size)
    (hnext : ∀ t, t ∈ next ↔ g.Beside (g.Around text p ids) t ∧ g.Enters text t p (p + 1)) :
    g.Leads text Final ids p ↔ g.Leads text Final next (p + 1) := by
  constructor
  · rintro ⟨id, hid, t, final, run⟩
    rcases run.split with ⟨stays, _⟩ | ⟨s, u, frees, edge, enters, onward⟩
    · simp only at stays
      omega
    · exact ⟨u, (hnext u).mpr ⟨⟨s, ⟨id, hid, frees⟩, edge⟩, enters⟩, t, final, onward⟩
  · rintro ⟨u, hu, t, final, onward⟩
    obtain ⟨⟨s, ⟨id, hid, frees⟩, edge⟩, enters⟩ := (hnext u).mp hu
    exact ⟨id, hid, t, final, ((Run.free frees).tail ⟨edge, enters⟩).trans onward⟩

end Graph

/-- What edges an arena has, and what guards with a table of them. -/
def graphOf (a : Arena) (guards : Array Guard) : Graph where
  targets := a.targets
  guard id := (a.mark id).bind (guards[·]?)

theorem Arena.guard_of_mark {a : Arena} {guards : Array Guard} {s : Nat} (h : a.mark s = none) :
    (graphOf a guards).guard s = none := by
  simp [graphOf, h]

theorem Arena.Sound.mark_of_guard {a : Arena} {guards : Array Guard} {s : Nat}
    (h : a.Sound guards.size) (free : (graphOf a guards).guard s = none) : a.mark s = none := by
  cases hm : a.mark s with
  | none => rfl
  | some g =>
    have known := h.marks s g hm
    simp [graphOf, hm, known] at free

namespace Nfa

def graph (n : Nfa) : Graph := graphOf n.arena n.guards

/-- A run from the start comes to the accepting state, reading the whole text. -/
def Accepts (n : Nfa) (text : Array Char) : Prop :=
  n.graph.Run text (n.start, 0) (n.accept, text.size)

/-- Every id is one that a table has. -/
structure Valid (n : Nfa) : Prop where
  start : n.start < n.size
  accept : n.accept < n.size
  edges : ∀ id t, t ∈ n.graph.targets id → t < n.size
  guards : ∀ id g, n.arena.mark id = some g → g < n.guards.size

/-- No charset of the table holds an assertion. -/
def Plain (n : Nfa) : Prop := ∀ guard ∈ n.guards, guard.plain = true

variable {n : Nfa}

theorem edges_eq {id : Nat} (h : id < n.size) : n.edges id = .ok (n.graph.targets id) :=
  Arena.edges_of_lt h

theorem Valid.guardOf_eq (v : n.Valid) {id : Nat} (h : id < n.size) :
    n.guardOf id = .ok (n.graph.guard id) := by
  have known := v.guards id
  simp only [guardOf, Arena.state_of_lt h, ok_bind, graph, graphOf]
  cases hg : n.arena.mark id with
  | none => rfl
  | some g =>
    have inside := known g hg
    simp [lookup_of_lt inside, ok_bind, pure, Except.pure, inside]

/-- The ids are those that the states hold, and the start and the accepting state. -/
theorem valid_iff : n.Valid ↔ n.start < n.size ∧ n.accept < n.size ∧
    ∀ s ∈ n.arena.states, (∀ t ∈ s.edges, t < n.size) ∧ ∀ g ∈ s.guard, g < n.guards.size := by
  constructor
  · intro v
    refine ⟨v.start, v.accept, fun s hs => ?_⟩
    obtain ⟨id, here⟩ := Array.mem_iff_getElem?.mp hs
    constructor
    · exact fun t ht => v.edges id t (Arena.mem_targets.mpr ⟨s, here, ht⟩)
    · exact fun g hg => v.guards id g (Option.bind_eq_some_iff.mpr ⟨s, here, hg⟩)
  · rintro ⟨start, accept, known⟩
    refine ⟨start, accept, fun id t ht => ?_, fun id g hg => ?_⟩
    · obtain ⟨s, here, ht⟩ := Arena.mem_targets.mp ht
      exact (known s (Array.mem_of_getElem? here)).1 t ht
    · obtain ⟨s, here, hg⟩ := Option.bind_eq_some_iff.mp hg
      exact (known s (Array.mem_of_getElem? here)).2 g hg

instance (n : Nfa) : Decidable n.Valid := decidable_of_iff' _ valid_iff

theorem Plain.guard (hp : n.Plain) {id : Nat} {guard : Guard} (h : n.graph.guard id = some guard) :
    guard.plain = true := by
  obtain ⟨g, _, hg⟩ := Option.bind_eq_some_iff.mp h
  exact hp guard (Array.mem_of_getElem? hg)

end Nfa

end WholeMatch
