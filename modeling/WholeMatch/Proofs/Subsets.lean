import Mathlib.Data.List.Sort
import Mathlib.Data.List.Sublists
import WholeMatch.Proofs.Grouping

namespace WholeMatch

theorem eraseReps_of_nodup {l : List Nat} (h : l.Nodup) : l.eraseReps = l := by
  have loop : ∀ (l acc : List Nat) (a : Nat), (a :: l).Nodup →
      List.eraseRepsBy.loop (· == ·) a l acc = acc.reverse ++ a :: l := by
    intro l
    induction l with
    | nil => intro acc a _; simp [List.eraseRepsBy.loop]
    | cons b l ih =>
      intro acc a distinct
      obtain ⟨other, distinct⟩ := List.nodup_cons.mp distinct
      have differ : (a == b) = false := by
        simp only [beq_eq_false_iff_ne]
        exact fun same => other (same ▸ List.mem_cons_self ..)
      rw [List.eraseRepsBy.loop, differ]
      simp only [ih (a :: acc) b distinct, List.reverse_cons, List.append_assoc, List.cons_append,
        List.nil_append]
  cases l with
  | nil => rfl
  | cons a l => exact loop l [] a h

variable {ids : List Nat}

theorem ascending_eq (h : ids.Nodup) : ascending ids = ids.mergeSort (· ≤ ·) :=
  eraseReps_of_nodup ((List.mergeSort_perm ids _).nodup_iff.mpr h)

theorem mem_ascending (h : ids.Nodup) {i : Nat} : i ∈ ascending ids ↔ i ∈ ids := by
  rw [ascending_eq h, List.mem_mergeSort]

theorem pairwise_ascending (h : ids.Nodup) : (ascending ids).Pairwise (· < ·) := by
  have sorted : (ids.mergeSort (· ≤ ·)).Pairwise fun a b => decide (a ≤ b) = true :=
    List.pairwise_mergeSort (fun a b c hab hbc => by simp_all; omega)
      (fun a b => by simp; omega) ids
  have once : (ids.mergeSort (· ≤ ·)).Nodup := (List.mergeSort_perm ids _).nodup_iff.mpr h
  rw [ascending_eq h]
  apply (sorted.and once).imp
  intro a b both
  exact Nat.lt_of_le_of_ne (of_decide_eq_true both.1) both.2

/-- The members of a composite are entered alike: all through guards with the label of its own, or
all freely. -/
def Nfa.Kind (n : Nfa) (guard : Option Nat) (states : List Nat) : Prop :=
  match guard with
  | none => ∀ s ∈ states, n.graph.guard s = none
  | some g => ∃ own, n.guards[g]? = some own ∧
    ∀ s ∈ states, ∃ guard, n.graph.guard s = some guard ∧ guard.label = own.label

theorem Nfa.Kind.mono {n : Nfa} {guard : Option Nat} {states states' : List Nat}
    (h : n.Kind guard states) (sub : ∀ s ∈ states', s ∈ states) : n.Kind guard states' := by
  cases guard with
  | none => exact fun s hs => h s (sub s hs)
  | some g =>
    obtain ⟨own, hg, alike⟩ := h
    exact ⟨own, hg, fun s hs => alike s (sub s hs)⟩

/-- The composite of that id has the members that are asked for. -/
def HasMembers (cs : Array Composite) (t : Nat) (P : Nat → Prop) : Prop :=
  ∃ c, cs[t]? = some c ∧ ∀ s, s ∈ c.members ↔ P s

/-- An edge leads from one composite to the other. -/
def Linked (cs : Array Composite) (i t : Nat) : Prop := ∃ c, cs[i]? = some c ∧ t ∈ c.edges

/-- A composite has the edges it is given: one to each of its groups. -/
structure Complete (n : Nfa) (cs : Array Composite) (c : Composite) : Prop where
  once : c.edges.Nodup
  sound : ∀ t ∈ c.edges, ∃ label, HasMembers cs t (n.Grouped c.members label)
  complete : ∀ label s, n.Grouped c.members label s →
    ∃ t ∈ c.edges, HasMembers cs t (n.Grouped c.members label)

/-- The lists that composites are made of: the start alone, and from there on the states that are
entered next under one label, or freely and accepting. -/
inductive Nfa.Composes (n : Nfa) : List Nat → Prop where
  | root : n.Composes [n.start]
  | next {members states : List Nat} {label : Option String} (before : n.Composes members)
      (filled : states ≠ []) (ascending : states.Pairwise (· < ·))
      (grouped : ∀ s, s ∈ states ↔ n.Grouped members label s) : n.Composes states

/-- A composite is a set of states that are entered alike. -/
structure Proper (n : Nfa) (c : Composite) : Prop where
  composed : n.Composes c.members
  filled : c.members ≠ []
  ascending : c.members.Pairwise (· < ·)
  inside : ∀ s ∈ c.members, s < n.size
  kind : n.Kind c.guard c.members
  accepting : c.accepting = true ↔ n.accept ∈ c.members

theorem Proper.nodup {n : Nfa} {c : Composite} (h : Proper n c) : c.members.Nodup :=
  h.ascending.imp Nat.ne_of_lt

/-- Composites are added, and the others stay what they are, but that the one that is completed
gets more edges. -/
structure Extends (id : Nat) (cs cs' : Array Composite) : Prop where
  old : ∀ (i : Nat) c, cs[i]? = some c → ∃ edges, cs'[i]? = some { c with edges := edges } ∧
    c.edges ⊆ edges ∧ (i ≠ id → edges = c.edges)
  new : ∀ (i : Nat) c, cs.size ≤ i → cs'[i]? = some c → c.edges = []

namespace Extends

variable {id : Nat} {cs cs' cs'' : Array Composite}

theorem refl (id : Nat) (cs : Array Composite) : Extends id cs cs where
  old i c hc := ⟨c.edges, hc, List.Subset.refl _, fun _ => rfl⟩
  new i c hi hc := by
    rw [Array.getElem?_eq_none hi] at hc
    cases hc

theorem push (id : Nat) {c : Composite} (untied : c.edges = []) : Extends id cs (cs.push c) where
  old i c' hc := by
    have room : i < cs.size := (Array.getElem?_eq_some_iff.mp hc).1
    exact ⟨c'.edges, by rw [Array.getElem?_push, if_neg (by omega), hc], List.Subset.refl _,
      fun _ => rfl⟩
  new i c' hi hc := by
    rw [Array.getElem?_push] at hc
    split at hc
    · cases hc
      exact untied
    · rw [Array.getElem?_eq_none hi] at hc
      cases hc

theorem trans (h : Extends id cs cs') (h' : Extends id cs' cs'') (room : id < cs.size) :
    Extends id cs cs'' where
  old i c hc := by
    obtain ⟨edges, hc', sub, same⟩ := h.old i c hc
    obtain ⟨edges', hc'', sub', same'⟩ := h'.old i _ hc'
    exact ⟨edges', hc'', List.Subset.trans sub sub', fun hi => (same' hi).trans (same hi)⟩
  new i c hi hc := by
    by_cases lt : i < cs'.size
    · obtain ⟨edges, hc', _, same⟩ := h'.old i cs'[i] (Array.getElem?_eq_getElem lt)
      rw [hc] at hc'
      cases hc'
      rw [same (by omega)]
      exact h.new i _ hi (Array.getElem?_eq_getElem lt)
    · exact h'.new i c (by omega) hc

theorem hasMembers (h : Extends id cs cs') {t : Nat} {P : Nat → Prop} (ht : HasMembers cs t P) :
    HasMembers cs' t P := by
  obtain ⟨c, hc, same⟩ := ht
  obtain ⟨edges, hc', _⟩ := h.old t c hc
  exact ⟨_, hc', same⟩

theorem linked (h : Extends id cs cs') {i t : Nat} (edge : Linked cs i t) : Linked cs' i t := by
  obtain ⟨c, hc, ht⟩ := edge
  obtain ⟨edges, hc', sub, _⟩ := h.old i c hc
  exact ⟨_, hc', sub ht⟩

theorem complete {n : Nfa} {c : Composite} (h : Extends id cs cs') (hc : Complete n cs c) :
    Complete n cs' c where
  once := hc.once
  sound t ht := by
    obtain ⟨label, members⟩ := hc.sound t ht
    exact ⟨label, h.hasMembers members⟩
  complete label x hx := by
    obtain ⟨t, ht, members⟩ := hc.complete label x hx
    exact ⟨t, ht, h.hasMembers members⟩

end Extends

namespace Subsets

/-- What holds of the composites found so far, and of their index. -/
structure Sane (n : Nfa) (s : Subsets) : Prop where
  proper : ∀ (i : Nat) c, s.composites[i]? = some c → Proper n c
  distinct : ∀ (i j : Nat) c c', s.composites[i]? = some c → s.composites[j]? = some c' →
    c.members = c'.members → i = j
  listed : ∀ (i : Nat) c, s.composites[i]? = some c → i ∈ s.index.getD (canonicalHash c.members) []
  known : ∀ hash, ∀ i ∈ s.index.getD hash [], i < s.composites.size

variable {n : Nfa} {s : Subsets} {id : Nat}

theorem find_spec {cs : Array Composite} (members : List Nat) {bucket : List Nat}
    (inside : ∀ i ∈ bucket, i < cs.size) :
    ∃ found, find cs members bucket = .ok found ∧ match found with
      | some i => ∃ c, cs[i]? = some c ∧ c.members = members
      | none => ∀ i ∈ bucket, ∀ c, cs[i]? = some c → c.members ≠ members := by
  induction bucket with
  | nil => exact ⟨none, rfl, by simp⟩
  | cons i bucket ih =>
    obtain ⟨room, inside⟩ := List.forall_mem_cons.mp inside
    rw [find, lookup_of_lt room, ok_bind]
    by_cases same : cs[i].members = members
    · exact ⟨some i, by rw [if_pos same]; rfl, cs[i], Array.getElem?_eq_getElem room, same⟩
    · obtain ⟨found, hf, spec⟩ := ih inside
      refine ⟨found, by rw [if_neg same, hf], ?_⟩
      cases found with
      | some i => exact spec
      | none =>
        refine List.forall_mem_cons.mpr ⟨fun c hc => ?_, spec⟩
        rw [Array.getElem?_eq_getElem room] at hc
        cases hc
        exact same

/-- A composite is put behind the others, and into the bucket of its hash. -/
def file (s : Subsets) (c : Composite) : Subsets :=
  ⟨s.composites.push c, s.index.insert (canonicalHash c.members)
    (s.index.getD (canonicalHash c.members) [] ++ [s.composites.size])⟩

/-- The members of the composites, each of which was composed once. -/
theorem Sane.nodup (h : s.Sane n) : (s.composites.toList.map (·.members)).Nodup := by
  rw [List.nodup_iff_pairwise_ne, List.pairwise_iff_getElem]
  intro i j hi hj lt same
  simp only [List.length_map, Array.length_toList] at hi hj
  simp only [List.getElem_map, Array.getElem_toList] at same
  have := h.distinct i j _ _ (Array.getElem?_eq_getElem hi) (Array.getElem?_eq_getElem hj) same
  omega

theorem Sane.composed (h : s.Sane n) :
    ∀ members ∈ s.composites.toList.map (·.members), n.Composes members := by
  intro members hm
  obtain ⟨c, hc, rfl⟩ := List.mem_map.mp hm
  obtain ⟨i, hi⟩ := List.mem_iff_getElem?.mp hc
  exact (h.proper i c (by simpa using hi)).composed

theorem Sane.size_le (h : s.Sane n) (few : Few n.Composes words) : s.composites.size ≤ words := by
  simpa using few _ h.nodup h.composed

/-- While there is a composite to come, there is an id for it. -/
theorem Sane.size_lt (h : s.Sane n) (few : Few n.Composes words) {members : List Nat}
    (composed : n.Composes members)
    (fresh : ∀ (i : Nat) c, s.composites[i]? = some c → c.members ≠ members) :
    s.composites.size < words := by
  have absent : members ∉ s.composites.toList.map (·.members) := by
    intro hm
    obtain ⟨c, hc, same⟩ := List.mem_map.mp hm
    obtain ⟨i, hi⟩ := List.mem_iff_getElem?.mp hc
    exact fresh i c (by simpa using hi) same
  have all := few _ (List.nodup_cons.mpr ⟨absent, h.nodup⟩)
    (List.forall_mem_cons.mpr ⟨composed, h.composed⟩)
  rw [List.length_cons, List.length_map, Array.length_toList] at all
  exact all

/-- A composite may be filed whose members none of the others has. -/
theorem Sane.file (h : s.Sane n) {c : Composite} (proper : Proper n c)
    (fresh : ∀ (i : Nat) c', s.composites[i]? = some c' → c'.members ≠ c.members) :
    (s.file c).Sane n := by
  unfold Subsets.file
  constructor
  case proper =>
    intro i c' hc
    rw [Array.getElem?_push] at hc
    split at hc
    · cases hc
      exact proper
    · exact h.proper i c' hc
  case distinct =>
    intro i j c₁ c₂ hi hj same
    rw [Array.getElem?_push] at hi hj
    split at hi <;> split at hj
    · omega
    · cases hi
      exact absurd same.symm (fresh j c₂ hj)
    · cases hj
      exact absurd same (fresh i c₁ hi)
    · exact h.distinct i j c₁ c₂ hi hj same
  case listed =>
    intro i c' hc
    rw [Std.HashMap.getD_insert]
    rw [Array.getElem?_push] at hc
    split at hc
    · next last =>
      cases hc
      rw [if_pos (by simp), last]
      simp
    · have bucket := h.listed i c' hc
      split
      · next same =>
        rw [← eq_of_beq same] at bucket
        exact List.mem_append_left _ bucket
      · exact bucket
  case known =>
    intro hash i hi
    rw [Std.HashMap.getD_insert] at hi
    rw [Array.size_push]
    split at hi
    · rcases List.mem_append.mp hi with old | new
      · have := h.known _ i old
        omega
      · rw [List.mem_singleton.mp new]
        omega
    · have := h.known hash i hi
      omega

/-- **A set of states is given a composite**, the one it has already if there is one. -/
theorem intern_sane (few : Few n.Composes words) (h : s.Sane n) (guard : Option Nat)
    {states : List Nat} (composed : n.Composes (ascending states)) (filled : states ≠ [])
    (distinct : states.Nodup) (inside : ∀ i ∈ states, i < n.size) (kind : n.Kind guard states) :
    ∃ t s', s.intern n.accept guard states = .ok (t, s') ∧ s'.Sane n ∧ t ≤ s.composites.size ∧
      (∀ id, Extends id s.composites s'.composites) ∧ HasMembers s'.composites t (· ∈ states) ∧
      ∀ i, i < s'.composites.size → i < s.composites.size ∨ i = t := by
  have members : ∀ x, x ∈ ascending states ↔ x ∈ states := fun x => mem_ascending distinct
  obtain ⟨found, hf, spec⟩ := find_spec (ascending states)
    (h.known (canonicalHash (ascending states)))
  cases found with
  | some t =>
    obtain ⟨c, hc, same⟩ := spec
    have room : t < s.composites.size := (Array.getElem?_eq_some_iff.mp hc).1
    refine ⟨t, s, ?_, h, Nat.le_of_lt room, fun id => .refl id _, ⟨c, hc, fun x => ?_⟩,
      fun i hi => .inl hi⟩
    · simp only [intern, hf, ok_bind]
      rfl
    · rw [same, members]
  | none =>
    have fresh : ∀ (i : Nat) c, s.composites[i]? = some c → c.members ≠ ascending states := by
      intro i c hc same
      have bucket := h.listed i c hc
      rw [same] at bucket
      exact spec i bucket c hc same
    have filled : ascending states ≠ [] := by
      obtain ⟨x, hx⟩ := List.exists_mem_of_ne_nil _ filled
      exact List.ne_nil_of_mem ((members x).mpr hx)
    have proper : Proper n
        ⟨guard, ascending states, (ascending states).contains n.accept, []⟩ :=
      ⟨composed, filled, pairwise_ascending distinct, fun x hx => inside x ((members x).mp hx),
        kind.mono fun x hx => (members x).mp hx, by simp⟩
    refine ⟨s.composites.size, s.file _, ?_, h.file proper fresh, Nat.le_refl _,
      fun id => .push id rfl, ⟨_, Array.getElem?_push_size, members⟩, fun i hi => ?_⟩
    · have id : word s.composites.size = s.composites.size :=
        word_of_lt (h.size_lt few composed fresh)
      simp only [intern, hf, ok_bind, id]
      rfl
    · rw [file, Array.size_push] at hi
      omega

/-- Edges may be changed at will. -/
theorem Sane.edges (h : s.Sane n) {cs : Array Composite} (size : cs.size = s.composites.size)
    (same : ∀ (i : Nat) c, cs[i]? = some c →
      ∃ c', s.composites[i]? = some c' ∧ c = { c' with edges := c.edges }) :
    Sane n ⟨cs, s.index⟩ where
  proper i c hc := by
    obtain ⟨c', hc', e⟩ := same i c hc
    have proper := h.proper i c' hc'
    rw [e]
    exact ⟨proper.composed, proper.filled, proper.ascending, proper.inside, proper.kind,
      proper.accepting⟩
  distinct i j c d hc hd equal := by
    obtain ⟨c', hc', e⟩ := same i c hc
    obtain ⟨d', hd', e'⟩ := same j d hd
    rw [e, e'] at equal
    exact h.distinct i j c' d' hc' hd' equal
  listed i c hc := by
    obtain ⟨c', hc', e⟩ := same i c hc
    rw [e]
    exact h.listed i c' hc'
  known hash i hi := size ▸ h.known hash i hi

theorem connect_sane (h : s.Sane n) {c : Composite} (hc : s.composites[id]? = some c) (t : Nat) :
    ∃ s', s.connect id t = .ok s' ∧ s'.Sane n ∧ Extends id s.composites s'.composites ∧
      s'.composites[id]? = some { c with edges := addNew c.edges t } ∧
      s'.composites.size = s.composites.size := by
  obtain ⟨room, e⟩ := Array.getElem?_eq_some_iff.mp hc
  obtain ⟨composites, index⟩ := s
  simp only at room e
  have others : ∀ i : Nat, i ≠ id →
      (composites.set id { c with edges := addNew c.edges t } room)[i]? = composites[i]? :=
    fun i hi => by rw [Array.getElem?_set, if_neg (Ne.symm hi)]
  have here : (composites.set id { c with edges := addNew c.edges t } room)[id]? =
      some { c with edges := addNew c.edges t } := by rw [Array.getElem?_set, if_pos rfl]
  refine ⟨_, ?_, h.edges (Array.size_set room) fun i c' hc' => ?_, ⟨fun i c' hc' => ?_,
    fun i c' hi hc' => ?_⟩, here, Array.size_set room⟩
  · rw [connect, lookup_of_lt room, ok_bind, e, store_of_lt room]
    rfl
  · by_cases same : i = id
    · subst same
      rw [here] at hc'
      cases hc'
      exact ⟨c, hc, rfl⟩
    · rw [others i same] at hc'
      exact ⟨c', hc', rfl⟩
  · by_cases same : i = id
    · subst same
      rw [hc] at hc'
      cases hc'
      exact ⟨_, here, fun u hu => mem_addNew.mpr (.inl hu), fun wrong => absurd rfl wrong⟩
    · exact ⟨c'.edges, (others i same).trans hc', List.Subset.refl _, fun _ => rfl⟩
  · rw [Array.getElem?_eq_none (by rw [Array.size_set]; exact hi)] at hc'
    cases hc'

/-- A group of states that are entered alike. -/
structure Alike (n : Nfa) (g : Group) : Prop where
  composed : n.Composes (ascending g.states)
  states : g.states ≠ []
  nodup : g.states.Nodup
  inside : ∀ s ∈ g.states, s < n.size
  labels : ∀ s ∈ g.states, n.Labels g.label s

/-- The guard of a group is that of its first state. -/
theorem addEdges_cons (s : Subsets) (id : Nat) {g : Group} (h : Alike n g) (gs : List Group) :
    ∃ guard, n.Kind guard g.states ∧ addEdges n id (g :: gs) s =
      (do let (target, s) ← s.intern n.accept guard g.states
          addEdges n id gs (← s.connect id target)) := by
  obtain ⟨label, states⟩ := g
  cases label with
  | none =>
    refine ⟨none, fun x hx => ?_, by rw [addEdges]; rfl⟩
    have labels := h.labels x hx
    unfold Nfa.Labels at labels
    split at labels
    · cases labels
    · assumption
  | some label =>
    cases states with
    | nil => exact absurd rfl h.states
    | cons first rest =>
      have room : first < n.arena.size := h.inside first (List.mem_cons_self ..)
      refine ⟨n.arena.mark first, ?_, by rw [addEdges]; simp only [Arena.state_of_lt room]; rfl⟩
      have guards : ∀ x ∈ first :: rest, ∃ guard, n.graph.guard x = some guard ∧
          guard.label = label := by
        intro x hx
        have labels := h.labels x hx
        unfold Nfa.Labels at labels
        split at labels
        · next guard hx => exact ⟨guard, hx, (Option.some.inj labels).symm⟩
        · cases labels.1
      obtain ⟨own, hown, same⟩ := guards first (List.mem_cons_self ..)
      obtain ⟨gid, hm, hg⟩ := Option.bind_eq_some_iff.mp hown
      rw [hm]
      refine ⟨own, hg, fun x hx => ?_⟩
      obtain ⟨guard, hx, same'⟩ := guards x hx
      exact ⟨guard, hx, same'.trans same.symm⟩

/-- What giving the composite `c` an edge for each of the groups leaves behind. -/
structure Joined (n : Nfa) (id : Nat) (gs : List Group) (s : Subsets) (c : Composite)
    (s' : Subsets) (edges : List Nat) : Prop where
  sane : s'.Sane n
  added : Extends id s.composites s'.composites
  here : s'.composites[id]? = some { c with edges := edges }
  sub : c.edges ⊆ edges
  once : c.edges.Nodup → edges.Nodup
  sound : ∀ t ∈ edges, t ∈ c.edges ∨ ∃ g ∈ gs, HasMembers s'.composites t (· ∈ g.states)
  complete : ∀ g ∈ gs, ∃ t ∈ edges, HasMembers s'.composites t (· ∈ g.states)
  linked : ∀ i, i < s'.composites.size → i < s.composites.size ∨ i ∈ edges

/-- **A composite is given an edge to a composite of each group**, and to nothing else. -/
theorem addEdges_sane (few : Few n.Composes words) (gs : List Group) :
    ∀ {s : Subsets} {c : Composite}, s.Sane n → s.composites[id]? = some c → (∀ g ∈ gs, Alike n g) →
    ∃ s' edges, addEdges n id gs s = .ok s' ∧ Joined n id gs s c s' edges := by
  induction gs with
  | nil =>
    intro s c h hc _
    exact ⟨s, c.edges, rfl, h, .refl id _, hc, List.Subset.refl _, fun once => once,
      fun t ht => .inl ht, by simp, fun i hi => .inl hi⟩
  | cons g gs ih =>
    intro s c h hc hgs
    obtain ⟨hg, hgs⟩ := List.forall_mem_cons.mp hgs
    obtain ⟨guard, kind, step⟩ := addEdges_cons s id hg gs
    obtain ⟨t, s₁, hi, h₁, _, made, members, new⟩ :=
      intern_sane few h guard hg.composed hg.states hg.nodup hg.inside kind
    have room : id < s.composites.size := (Array.getElem?_eq_some_iff.mp hc).1
    obtain ⟨edges₁, hc₁, _, same⟩ := (made (id + 1)).old id c hc
    obtain rfl := same (Nat.ne_of_lt (Nat.lt_succ_self id))
    obtain ⟨s₂, hconn, h₂, linked, hc₂, size⟩ := connect_sane h₁ hc₁ t
    obtain ⟨s', edges, ha, rest⟩ := ih h₂ hc₂ hgs
    have room₁ : id < s₁.composites.size := (Array.getElem?_eq_some_iff.mp hc₁).1
    have later := linked.trans rest.added room₁
    have edge : t ∈ edges := rest.sub (mem_addNew.mpr (.inr rfl))
    have here : HasMembers s'.composites t (· ∈ g.states) := later.hasMembers members
    refine ⟨s', edges, ?_, ?_⟩
    · rw [step, hi, ok_bind]
      simp only [hconn, ok_bind, ha]
    · constructor
      case sane => exact rest.sane
      case added => exact (made id).trans later room
      case here => exact rest.here
      case sub => exact fun u hu => rest.sub (mem_addNew.mpr (.inl hu))
      case once => exact fun once => rest.once (nodup_addNew once)
      case sound =>
        intro u hu
        rcases rest.sound u hu with old | ⟨g', hg', depicts⟩
        · rcases mem_addNew.mp old with old | rfl
          · exact .inl old
          · exact .inr ⟨g, List.mem_cons_self .., here⟩
        · exact .inr ⟨g', List.mem_cons_of_mem _ hg', depicts⟩
      case complete => exact List.forall_mem_cons.mpr ⟨⟨t, edge, here⟩, rest.complete⟩
      case linked =>
        intro i hi
        rcases rest.linked i hi with old | edge'
        · apply (new i (size ▸ old)).imp_right
          rintro rfl
          exact edge
        · exact .inr edge'

/-- The groups of a composite are sets of states that are entered alike. -/
theorem alike_of_grouped (v : n.Valid) {members : List Nat} {gs : List Group}
    (before : n.Composes members) (well : WellGrouped gs)
    (same : ∀ label x, InGroup gs label x ↔ n.Grouped members label x) :
    ∀ g ∈ gs, Alike n g := by
  intro g hg
  have grouped : ∀ x ∈ g.states, n.Grouped members g.label x :=
    fun x hx => (same _ _).mp ((well.mem_states hg).mp hx)
  obtain ⟨filled, distinct⟩ := well.states g hg
  refine ⟨?_, filled, distinct, fun x hx => ?_, fun x hx => (grouped x hx).2⟩
  · apply before.next _ (pairwise_ascending distinct)
    · exact fun x => (mem_ascending distinct).trans ((well.mem_states hg).trans (same _ _))
    · obtain ⟨x, hx⟩ := List.exists_mem_of_ne_nil _ filled
      exact List.ne_nil_of_mem ((mem_ascending distinct).mpr hx)
  · obtain ⟨⟨u, _, edge⟩, _⟩ := grouped x hx
    exact v.edges u x edge

/-- What holds when the composites in front of `id` are complete. -/
structure Underway (n : Nfa) (id : Nat) (s : Subsets) : Prop where
  sane : s.Sane n
  le : id ≤ s.composites.size
  done : ∀ (i : Nat) c, i < id → s.composites[i]? = some c → Complete n s.composites c
  untied : ∀ (i : Nat) c, id ≤ i → s.composites[i]? = some c → c.edges = []
  linked : ∀ i, i < s.composites.size →
    Relation.ReflTransGen (Linked s.composites) Dfa.root i

/-- Edges for the groups of a composite complete it. -/
theorem Joined.complete_here {gs : List Group} {c : Composite} {s' : Subsets} {edges : List Nat}
    (h : Joined n id gs s c s' edges) (untied : c.edges = []) (well : WellGrouped gs)
    (same : ∀ label x, InGroup gs label x ↔ n.Grouped c.members label x) :
    Complete n s'.composites { c with edges := edges } := by
  have states : ∀ g ∈ gs, ∀ x, x ∈ g.states ↔ n.Grouped c.members g.label x :=
    fun g hg x => (well.mem_states hg).trans (same _ _)
  constructor
  case once => exact h.once (untied ▸ List.nodup_nil)
  case sound =>
    intro t ht
    rcases h.sound t ht with old | ⟨g, hg, c', hc', members⟩
    · rw [untied] at old
      cases old
    · exact ⟨g.label, c', hc', fun x => (members x).trans (states g hg x)⟩
  case complete =>
    intro label x hx
    obtain ⟨g, hg, rfl, hx⟩ := (same label x).mpr hx
    obtain ⟨t, ht, c', hc', members⟩ := h.complete g hg
    exact ⟨t, ht, c', hc', fun x => (members x).trans (states g hg x)⟩

/-- When one more composite is complete, those that were are so still, and those that were made
for it can be reached through it. -/
theorem Joined.underway {gs : List Group} {c : Composite} {s' : Subsets} {edges : List Nat}
    (h : Joined n id gs s c s' edges) (before : s.Underway n id)
    (hc : s.composites[id]? = some c)
    (complete : Complete n s'.composites { c with edges := edges }) :
    s'.Underway n (id + 1) := by
  have lt : id < s.composites.size := (Array.getElem?_eq_some_iff.mp hc).1
  constructor
  case sane => exact h.sane
  case le => exact (Array.getElem?_eq_some_iff.mp h.here).1
  case done =>
    intro i d hi hd
    by_cases now : i = id
    · subst now
      rw [h.here] at hd
      cases hd
      exact complete
    · have old : i < s.composites.size := by omega
      obtain ⟨edges', hd', _, same⟩ := h.added.old i _ (Array.getElem?_eq_getElem old)
      obtain rfl := same now
      rw [hd'] at hd
      cases hd
      exact h.added.complete (before.done i _ (by omega) (Array.getElem?_eq_getElem old))
  case untied =>
    intro i d hi hd
    by_cases old : i < s.composites.size
    · obtain ⟨edges', hd', _, same⟩ := h.added.old i _ (Array.getElem?_eq_getElem old)
      rw [hd'] at hd
      cases hd
      rw [same (by omega)]
      exact before.untied i _ (by omega) (Array.getElem?_eq_getElem old)
    · exact h.added.new i d (by omega) hd
  case linked =>
    intro i hi
    have carried : ∀ j, j < s.composites.size →
        Relation.ReflTransGen (Linked s'.composites) Dfa.root j :=
      fun j hj => Relation.ReflTransGen.mono (fun _ _ => h.added.linked) _ _ (before.linked j hj)
    rcases h.linked i hi with old | edge
    · exact carried i old
    · exact (carried id lt).tail ⟨_, h.here, edge⟩

/-- Completing a composite. -/
theorem completeOne_underway (v : n.Valid) (few : Few n.Composes words) (h : s.Underway n id)
    (room : id < s.composites.size) {seen : IndexSet} {l : List Nat} (hseen : seen.Lists n.size l) :
    ∃ s' seen' l', completeOne n id s seen = .ok (s', seen') ∧ seen'.Lists n.size l' ∧
      s'.Underway n (id + 1) ∧ Extends id s.composites s'.composites := by
  have hc := Array.getElem?_eq_getElem room
  have proper := h.sane.proper id _ hc
  obtain ⟨gs, seen', l', hg, hseen', well, same⟩ :=
    Nfa.gather_spec v proper.inside hseen.clear
  obtain ⟨s', edges, ha, joined⟩ :=
    addEdges_sane few gs h.sane hc (alike_of_grouped v proper.composed well same)
  have untied := h.untied id _ (Nat.le_refl _) hc
  have complete := joined.complete_here untied well same
  refine ⟨s', seen', l', ?_, hseen', joined.underway h hc complete, joined.added⟩
  rw [completeOne, lookup_of_lt room, ok_bind, hg, ok_bind]
  simp only [ha, ok_bind]
  rfl

/-- **The construction comes to an end**, with every composite complete, if there are ids for
them all. -/
theorem complete_spec (v : n.Valid) (few : Few n.Composes words) (fuel : Nat) :
    ∀ (turn : Nat) {s : Subsets} {seen : IndexSet} {l : List Nat}, s.Underway n turn →
    seen.Lists n.size l → words < turn + fuel →
    ∃ s' : Subsets, complete n fuel turn s seen = .ok s'.composites ∧
      s'.Underway n s'.composites.size ∧
      ∀ t P, HasMembers s.composites t P → HasMembers s'.composites t P := by
  induction fuel with
  | zero =>
    intro turn s seen l h _ enough
    have size := h.sane.size_le few
    have le := h.le
    omega
  | succ fuel ih =>
    intro turn s seen l h hseen enough
    have size := h.sane.size_le few
    rw [complete]
    split
    · next room =>
      have id : word turn = turn := word_of_lt (by omega)
      obtain ⟨s₁, seen', l', hc, hseen', h₁, added⟩ := completeOne_underway v few h room hseen
      obtain ⟨s', hs, h', keeps⟩ := ih (turn + 1) h₁ hseen' (by omega)
      refine ⟨s', ?_, h', fun t P members => keeps t P (added.hasMembers members)⟩
      rw [id, hc, ok_bind]
      exact hs
    · have last : turn = s.composites.size := Nat.le_antisymm h.le (by omega)
      exact ⟨s, rfl, last ▸ h, fun _ _ members => members⟩

theorem sane_empty (n : Nfa) : Sane n ⟨#[], ∅⟩ where
  proper := by simp
  distinct := by simp
  listed := by simp
  known := by simp

/-- The construction begins with the root alone. -/
theorem root_underway (v : n.Valid) (few : Few n.Composes words)
    (free : n.graph.guard n.start = none) :
    ∃ s, intern ⟨#[], ∅⟩ n.accept none [n.start] = .ok (Dfa.root, s) ∧ s.Underway n 0 ∧
      HasMembers s.composites Dfa.root (· = n.start) := by
  have first : n.Composes (ascending [n.start]) := by
    rw [ascending_eq (List.nodup_singleton _), List.mergeSort_singleton]
    exact .root
  obtain ⟨t, s, hi, h, le, made, ⟨c, hc, members⟩, new⟩ := intern_sane few
    (sane_empty n) none first (List.cons_ne_nil n.start []) (List.nodup_singleton n.start)
    (by simpa using v.start) (by simpa [Nfa.Kind] using free)
  obtain rfl : t = 0 := Nat.le_zero.mp le
  refine ⟨s, hi, ⟨h, Nat.zero_le _, fun i c hi => absurd hi (by omega), ?_, ?_⟩,
    c, hc, fun x => (members x).trans List.mem_singleton⟩
  · exact fun i c _ hc => (made 0).new i c (Nat.zero_le _) hc
  · intro i hi
    have first : i = 0 := (new i hi).resolve_left (Nat.not_lt_zero i)
    exact first ▸ .refl

end Subsets

/-- The composites of an automaton depict the sets of states that it can be in. -/
structure Dfa.Depicts (d : Dfa) (n : Nfa) : Prop where
  guards : d.guards = n.guards
  composites : ∀ (i : Nat) c, d.composites[i]? = some c → Proper n c ∧ Complete n d.composites c
  distinct : ∀ (i j : Nat) c c', d.composites[i]? = some c → d.composites[j]? = some c' →
    c.members = c'.members → i = j
  linked : ∀ i, i < d.size → Relation.ReflTransGen (Linked d.composites) Dfa.root i
  root : HasMembers d.composites Dfa.root (· = n.start)

/-- **The subset construction comes to an end** on every automaton whose ids are valid, whose start
has no guard and whose composites are not too many for their ids, and what it builds depicts the
automaton. -/
theorem ofNfa_depicts {n : Nfa} (v : n.Valid) (free : n.graph.guard n.start = none)
    (few : Few n.Composes words) : ∃ d, Dfa.ofNfa n = .ok d ∧ d.Depicts n := by
  obtain ⟨s, hi, h, root⟩ := Subsets.root_underway v few free
  obtain ⟨s', hc, h', keeps⟩ := Subsets.complete_spec v few Subsets.places 0 h
    (IndexSet.lists_empty n.size) (by decide)
  refine ⟨⟨s'.composites, n.guards⟩, ?_, rfl, fun i c hi => ⟨h'.sane.proper i c hi, ?_⟩,
    h'.sane.distinct, h'.linked, keeps _ _ root⟩
  · rw [Dfa.ofNfa, hi, ok_bind]
    simp only [hc, ok_bind]
    rfl
  · exact h'.done i c (Array.getElem?_eq_some_iff.mp hi).1 hi

/-- What is composed is an ascending list of states. -/
theorem Nfa.Composes.sublist {n : Nfa} (v : n.Valid) {members : List Nat}
    (h : n.Composes members) : members.Sublist (List.range n.size) := by
  cases h with
  | root => simpa using v.start
  | @next before _ label _ _ ascending grouped =>
    have below : members ⊆ List.range n.size := by
      intro x hx
      obtain ⟨⟨u, _, edge⟩, _⟩ := (grouped x).mp hx
      exact List.mem_range.mpr (v.edges u x edge)
    exact List.sublist_of_subperm_of_pairwise
      (List.subperm_of_subset (ascending.imp Nat.ne_of_lt) below) (ascending.imp Nat.le_of_lt)
      List.pairwise_le_range

/-- There are no more composites than sets of states, and so a small automaton has ids for them. -/
theorem few_composes {n : Nfa} (v : n.Valid) (small : n.size ≤ 32) : Few n.Composes words := by
  intro l once composed
  have subsets : l ⊆ (List.range n.size).sublists :=
    fun members hm => List.mem_sublists.mpr ((composed members hm).sublist v)
  have all := (List.subperm_of_subset once subsets).length_le
  rw [List.length_sublists, List.length_range] at all
  exact Nat.le_trans all (Nat.pow_le_pow_right (by decide) small)

end WholeMatch
