import Mathlib.Tactic.Tauto
import WholeMatch.Nfa.Collapse
import WholeMatch.Proofs.Shrinking

namespace WholeMatch

namespace Nfa

theorem addTargets_lists {size : Nat} (ts : List Nat) : ∀ {seen : IndexSet} {l : List Nat},
    seen.Lists size l → (∀ t ∈ ts, t < size) →
    ∃ after, addTargets ts seen = .ok after ∧ after.Lists size (ts.foldl addNew l) := by
  induction ts with
  | nil => exact fun h _ => ⟨_, rfl, h⟩
  | cons t ts ih =>
    intro seen l h hts
    obtain ⟨ht, hts⟩ := List.forall_mem_cons.mp hts
    obtain ⟨next, hi, h⟩ := h.insert_eq ht
    obtain ⟨after, ha, h⟩ := ih h hts
    exact ⟨after, by rw [addTargets, hi, ok_bind, ha], h⟩

variable {n : Nfa}

/-- Closing a list of reachable states goes on until it holds the targets of all its members. -/
theorem closeFrom_lists (v : n.Valid) (i : Nat) (seen : IndexSet) : ∀ {l : List Nat},
    seen.Lists n.size l → (∀ s ∈ l, n.graph.Reach n.start s) →
    (∀ s ∈ l.take i, n.graph.targets s ⊆ l) →
    ∃ after l', n.closeFrom i seen = .ok after ∧ after.Lists n.size l' ∧ l ⊆ l' ∧
      (∀ s ∈ l', n.graph.Reach n.start s) ∧ ∀ s ∈ l', n.graph.targets s ⊆ l' := by
  fun_induction closeFrom n i seen with
  | case1 i seen more inside f he =>
    intro l h _ _
    have member := List.mem_of_getElem? (h.getElem?_eq more inside)
    rw [edges_eq (h.lt_of_mem member)] at he
    cases he
  | case2 i seen more inside targets he f ha =>
    intro l h _ _
    have member := List.mem_of_getElem? (h.getElem?_eq more inside)
    rw [edges_eq (h.lt_of_mem member)] at he
    cases he
    obtain ⟨after, ha', _⟩ := addTargets_lists _ h (v.edges _)
    rw [ha'] at ha
    cases ha
  | case3 i seen more inside targets he after ha same ih =>
    intro l h reach closed
    have here := h.getElem?_eq more inside
    have member := List.mem_of_getElem? here
    rw [edges_eq (h.lt_of_mem member)] at he
    cases he
    obtain ⟨after', ha', h'⟩ := addTargets_lists _ h (v.edges _)
    rw [ha'] at ha
    cases ha
    have reach' : ∀ s ∈ (n.graph.targets seen.dense[i]).foldl addNew l,
        n.graph.Reach n.start s := by
      intro s hs
      rcases mem_foldl_addNew.mp hs with old | new
      · exact reach s old
      · exact (reach _ member).tail new
    obtain ⟨last, l', hc, hl', sub, reach', closed'⟩ := ih h' reach'
      (take_succ_closed here closed (prefix_foldl_addNew _ _)
        fun t ht => mem_foldl_addNew.mpr (.inr ht))
    exact ⟨last, l', hc, hl', fun s hs => sub (mem_foldl_addNew.mpr (.inl hs)), reach', closed'⟩
  | case4 i seen done =>
    intro l h reach closed
    refine ⟨seen, l, rfl, h, List.Subset.refl l, reach, ?_⟩
    rwa [List.take_of_length_le (by rw [← h.size_eq]; omega)] at closed

/-- **The order of the visit** lists the states that can be reached. -/
theorem reachable_spec (v : n.Valid) :
    ∃ order, n.reachable = .ok order ∧ (∀ s ∈ order, s < n.size) ∧
      ∀ s, s ∈ order ↔ n.graph.Reach n.start s := by
  obtain ⟨first, hi, h⟩ := (IndexSet.lists_empty n.size).insert_eq v.start
  have start : n.start ∈ addNew [] n.start := mem_addNew.mpr (.inr rfl)
  have only : ∀ s ∈ addNew [] n.start, n.graph.Reach n.start s := by
    intro s hs
    rcases mem_addNew.mp hs with hs | rfl
    · cases hs
    · exact .refl
  obtain ⟨after, l, hc, hl, sub, reach, closed⟩ := closeFrom_lists v 0 first h only (by simp)
  refine ⟨l, ?_, fun s => hl.lt_of_mem, fun s => ⟨reach s, fun path => ?_⟩⟩
  · rw [reachable, hi, ok_bind]
    simp only [hc, ok_bind, hl.members]
    rfl
  · induction path with
    | refl => exact sub start
    | tail _ edge ih => exact closed _ ih edge

/-- The entries of a state that a table lists. -/
def entriesOf (entries : Array (List Nat)) (s : Nat) : List Nat := entries[s]?.getD []

theorem entriesOf_set {entries : Array (List Nat)} {i s : Nat} {l : List Nat}
    (h : i < entries.size) :
    entriesOf (entries.set i l h) s = if s = i then l else entriesOf entries s := by
  unfold entriesOf
  rw [Array.getElem?_set]
  by_cases same : i = s
  · simp [same]
  · simp [same, Ne.symm same]

theorem nodup_entriesOf_set {entries : Array (List Nat)} {i : Nat} {l : List Nat}
    (h : i < entries.size) (once : ∀ s, (entriesOf entries s).Nodup) (new : l.Nodup) :
    ∀ s, (entriesOf (entries.set i l h) s).Nodup := by
  intro s
  rw [entriesOf_set]
  split
  · exact new
  · exact once s

theorem lookup_entries {entries : Array (List Nat)} {s : Nat} (h : s < entries.size) :
    lookup entries s = .ok (entriesOf entries s) := by
  simp [lookup_of_lt h, entriesOf, h]

theorem noteEntries_spec (id : Nat) (ts : List Nat) : ∀ (entries : Array (List Nat)),
    (∀ t ∈ ts, t < entries.size) →
    ∃ after, noteEntries id ts entries = .ok after ∧ after.size = entries.size ∧
      (∀ s u, u ∈ entriesOf after s ↔ u ∈ entriesOf entries s ∨ s ∈ ts ∧ u = id) ∧
      ((∀ s, (entriesOf entries s).Nodup) → ∀ s, (entriesOf after s).Nodup) := by
  induction ts with
  | nil => exact fun entries _ => ⟨entries, rfl, rfl, by simp, fun once => once⟩
  | cons t ts ih =>
    intro entries hts
    obtain ⟨ht, hts⟩ := List.forall_mem_cons.mp hts
    obtain ⟨after, ha, size, spec, distinct⟩ := ih (entries.set t (addNew (entriesOf entries t) id))
      (by simpa using hts)
    refine ⟨after, ?_, by simpa using size, fun s u => ?_, fun once => ?_⟩
    · rw [noteEntries, lookup_entries ht, ok_bind, store_of_lt ht, ok_bind, ha]
    · rw [spec, entriesOf_set, List.mem_cons]
      split
      · next same =>
        rw [mem_addNew, same]
        tauto
      · tauto
    · exact distinct (nodup_entriesOf_set ht once (nodup_addNew (once t)))

theorem entriesFrom_spec (v : n.Valid) (ids : List Nat) : ∀ (entries : Array (List Nat)),
    entries.size = n.size → (∀ id ∈ ids, id < n.size) →
    ∃ after, n.entriesFrom ids entries = .ok after ∧ after.size = n.size ∧
      (∀ s u, u ∈ entriesOf after s ↔
        u ∈ entriesOf entries s ∨ u ∈ ids ∧ s ∈ n.graph.targets u) ∧
      ((∀ s, (entriesOf entries s).Nodup) → ∀ s, (entriesOf after s).Nodup) := by
  induction ids with
  | nil => exact fun entries size _ => ⟨entries, rfl, size, by simp, fun once => once⟩
  | cons id ids ih =>
    intro entries size hids
    obtain ⟨hid, hids⟩ := List.forall_mem_cons.mp hids
    obtain ⟨noted, hn, size', spec, distinct⟩ := noteEntries_spec id (n.graph.targets id)
      entries fun t ht => size ▸ v.edges id t ht
    obtain ⟨after, ha, size'', spec', distinct'⟩ := ih noted (size'.trans size) hids
    refine ⟨after, ?_, size'', fun s u => ?_, fun once => distinct' (distinct once)⟩
    · rw [entriesFrom, edges_eq hid, ok_bind, hn, ok_bind, ha]
    · rw [spec', spec, List.mem_cons]
      constructor
      · rintro ((old | ⟨edge, rfl⟩) | later)
        · exact .inl old
        · exact .inr ⟨.inl rfl, edge⟩
        · exact .inr ⟨.inr later.1, later.2⟩
      · rintro (old | ⟨rfl | later, edge⟩)
        · exact .inl (.inl old)
        · exact .inl (.inr ⟨edge, rfl⟩)
        · exact .inr ⟨later, edge⟩

namespace Collapsing

variable {c : Collapsing} {id target : Nat} {guards : Nat}

def graph (n : Nfa) (c : Collapsing) : Graph := graphOf c.arena n.guards

/-- What holds between two merges of a collapse of `n`. -/
structure Keeps (n : Nfa) (c : Collapsing) : Prop where
  size : c.arena.size = n.size
  sound : c.arena.Sound n.guards.size
  marks : ∀ s, c.arena.mark s = n.arena.mark s
  accept : c.accept < n.size
  entries : c.entries.size = n.size
  gone : c.gone.size = n.size
  entered : ∀ s u, u ∈ entriesOf c.entries s ↔
    (c.graph n).Reach n.start u ∧ s ∈ c.arena.targets u
  once : ∀ s, (entriesOf c.entries s).Nodup
  stays : ∀ s, n.graph.Reach n.start s →
    (c.gone[s]? = some false ↔ (c.graph n).Reach n.start s)
  shrinks : Graph.Shrinks n.start n.graph n.accept c.merged (c.graph n) c.accept

/-- What a target that can be merged is like. -/
structure Mergeable (c : Collapsing) (start id target : Nat) : Prop where
  apart : target ≠ id
  first : target ≠ start
  free : c.arena.mark target = none
  entries : entriesOf c.entries target = [id]

theorem mergeable_spec (start id : Nat) (h : target < c.arena.size) (h' : target < c.entries.size) :
    ∃ b, c.mergeable start id target = .ok b ∧ (b = true ↔ c.Mergeable start id target) := by
  unfold mergeable
  split
  · next either =>
    simp only [Bool.or_eq_true, beq_iff_eq] at either
    exact ⟨false, rfl, by simp, fun hm => (either.elim hm.apart hm.first).elim⟩
  · next others =>
    simp only [Bool.or_eq_true, beq_iff_eq, not_or] at others
    rw [Arena.state_of_lt h, ok_bind]
    split
    · next guarded =>
      exact ⟨false, rfl, by simp, fun hm => by simp [hm.free] at guarded⟩
    · next free =>
      rw [lookup_entries h', ok_bind]
      refine ⟨_, rfl, fun same => ⟨others.1, others.2, ?_, ?_⟩, fun hm => ?_⟩
      · simpa using free
      · simpa using same
      · simpa using hm.entries

theorem firstMergeable_spec (c : Collapsing) (start id : Nat) (ts : List Nat)
    (hts : ∀ t ∈ ts, t < c.arena.size) (size : c.entries.size = c.arena.size) :
    ∃ o, c.firstMergeable start id ts = .ok o ∧
      (∀ t, o = some t → t ∈ ts ∧ c.Mergeable start id t) ∧
      (o = none → ∀ t ∈ ts, ¬ c.Mergeable start id t) := by
  induction ts with
  | nil => exact ⟨none, rfl, by simp, by simp⟩
  | cons t ts ih =>
    obtain ⟨ht, hts⟩ := List.forall_mem_cons.mp hts
    obtain ⟨b, hb, decides⟩ := mergeable_spec start id ht (size ▸ ht)
    rw [firstMergeable, hb, ok_bind]
    cases b with
    | true =>
      refine ⟨some t, rfl, ?_, by simp⟩
      rintro t' same
      cases same
      exact ⟨List.mem_cons_self .., decides.mp rfl⟩
    | false =>
      obtain ⟨o, ho, some', none'⟩ := ih hts
      refine ⟨o, by simpa using ho, fun t' same => ?_, fun same => ?_⟩
      · exact ⟨List.mem_cons_of_mem _ (some' t' same).1, (some' t' same).2⟩
      · exact List.forall_mem_cons.mpr ⟨fun hm => by simpa using decides.mpr hm, none' same⟩

/-- What inheriting edges leaves behind. -/
structure Inherits (a b : Arena) (before after : Array (List Nat)) (id target guards : Nat)
    (ts : List Nat) : Prop where
  size : b.size = a.size
  sound : b.Sound guards
  marks : ∀ s, b.mark s = a.mark s
  other : ∀ s, s ≠ id → b.targets s = a.targets s
  into : ∀ s, s ∈ b.targets id ↔ s ∈ a.targets id ∨ s ∈ ts
  entries : after.size = before.size
  kept : ∀ s, s ∉ ts → entriesOf after s = entriesOf before s
  noted : ∀ s ∈ ts, ∀ u, u ∈ entriesOf after s ↔ u ∈ entriesOf before s ∧ u ≠ target ∨ u = id
  once : (∀ s, (entriesOf before s).Nodup) → ∀ s, (entriesOf after s).Nodup

theorem inherit_spec (target : Nat) (ts : List Nat) : ∀ {a : Arena}
    (entries : Array (List Nat)), a.Sound guards → id < a.size → entries.size = a.size →
    (∀ t ∈ ts, t < a.size) →
    ∃ b after, inherit id target ts a entries = .ok (b, after) ∧
      Inherits a b entries after id target guards ts := by
  induction ts with
  | nil =>
    intro a entries sound _ _ _
    exact ⟨a, entries, rfl, rfl, sound, fun _ => rfl, fun _ _ => rfl, by simp, rfl,
      fun _ _ => rfl, by simp, fun once => once⟩
  | cons t ts ih =>
    intro a entries sound hid size hts
    obtain ⟨ht, hts⟩ := List.forall_mem_cons.mp hts
    have ht' : t < entries.size := size ▸ ht
    obtain ⟨b, after, hi, h⟩ := ih
      (entries.set t (addNew ((entriesOf entries t).filter (· != target)) id))
      (sound.withEdge hid ht) (Arena.size_withEdge.symm ▸ hid)
      (by rw [Array.size_set, Arena.size_withEdge, size])
      (by simpa only [Arena.size_withEdge] using hts)
    refine ⟨b, after, ?_, ?_⟩
    · rw [inherit, lookup_entries ht', ok_bind, store_of_lt ht', ok_bind, Arena.connect_of_lt hid,
        ok_bind, hi]
    · constructor
      case size => exact h.size.trans Arena.size_withEdge
      case sound => exact h.sound
      case marks => exact fun s => (h.marks s).trans Arena.mark_withEdge
      case other =>
        intro s hs
        rw [h.other s hs, Arena.targets_withEdge hid, if_neg hs]
      case into =>
        intro s
        rw [h.into, Arena.targets_withEdge hid, if_pos rfl, mem_addNew, List.mem_cons, or_assoc]
      case entries => exact h.entries.trans (Array.size_set ..)
      case kept =>
        intro s hs
        obtain ⟨other, hs⟩ := not_or.mp (List.mem_cons.not.mp hs)
        rw [h.kept s hs, entriesOf_set, if_neg other]
      case noted =>
        intro s hs u
        by_cases later : s ∈ ts
        · rw [h.noted s later, entriesOf_set]
          split
          · next same =>
            rw [same, mem_addNew, List.mem_filter, bne_iff_ne]
            tauto
          · rfl
        · obtain rfl := (List.mem_cons.mp hs).resolve_right later
          rw [h.kept s later, entriesOf_set, if_pos rfl, mem_addNew, List.mem_filter, bne_iff_ne]
      case once =>
        intro once
        exact h.once (nodup_entriesOf_set ht' once (nodup_addNew ((once t).filter _)))

/-- The arena in which the target has lost its edges, and the state its edge to the target. -/
def emptied (c : Collapsing) (id target : Nat) : Arena :=
  (c.arena.rewire target fun _ => []).rewire id (·.erase target)

theorem size_emptied : (c.emptied id target).size = c.arena.size := by
  rw [emptied, Arena.size_rewire, Arena.size_rewire]

theorem targets_emptied (hid : id < c.arena.size) (ht : target < c.arena.size)
    (apart : target ≠ id) (s : Nat) : (c.emptied id target).targets s =
      if s = id then (c.arena.targets id).erase target
      else if s = target then [] else c.arena.targets s := by
  have hid' : id < (c.arena.rewire target fun _ => []).size := by rwa [Arena.size_rewire]
  rw [emptied, Arena.targets_rewire hid', Arena.targets_rewire ht, Arena.targets_rewire ht,
    if_neg (Ne.symm apart)]

theorem Inherits.marks_eq {b : Arena} {before after : Array (List Nat)} {ts : List Nat}
    (inh : Inherits (c.emptied id target) b before after id target guards ts) (s : Nat) :
    b.mark s = c.arena.mark s := by
  rw [inh.marks, emptied, Arena.mark_rewire, Arena.mark_rewire]

/-- When the state has inherited the edges of the target, that is merged into it. -/
theorem Inherits.merges (h : c.Keeps n) (reach : (c.graph n).Reach n.start id)
    (edge : target ∈ c.arena.targets id) (hm : c.Mergeable n.start id target) {b : Arena}
    {before after : Array (List Nat)} (inh : Inherits (c.emptied id target) b before after id target
      guards (c.arena.targets target)) :
    Graph.Merges (c.graph n) (graphOf b n.guards) n.start id target := by
  have hid : id < c.arena.size := Arena.lt_of_mem_targets edge
  have ht : target < c.arena.size := h.sound.edges id target edge
  refine ⟨fun u => ?_, Arena.guard_of_mark hm.free, hm.apart, hm.first, reach, edge,
    fun u hu hs => ?_, fun s => ?_, ?_, fun s hs hs' => ?_⟩
  · simp only [graph, graphOf, inh.marks_eq]
  · have entry := (h.entered target u).mpr ⟨hu, hs⟩
    rw [hm.entries, List.mem_singleton] at entry
    exact entry
  · change s ∈ b.targets id ↔ s ∈ c.arena.targets id ∧ s ≠ target ∨ s ∈ c.arena.targets target
    rw [inh.into, targets_emptied hid ht hm.apart, if_pos rfl,
      (h.sound.nodup id).mem_erase_iff, and_comm]
  · change b.targets target = []
    rw [inh.other _ hm.apart, targets_emptied hid ht hm.apart, if_neg hm.apart, if_pos rfl]
  · change b.targets s = c.arena.targets s
    rw [inh.other _ hs, targets_emptied hid ht hm.apart, if_neg hs, if_neg hs']

/-- No target of the state can be merged into it. -/
def Settled (c : Collapsing) (start id : Nat) : Prop :=
  ∀ t ∈ c.arena.targets id, ¬ c.Mergeable start id t

/-- What `id` absorbs takes nothing into reach, and gives no other state a target to merge. -/
structure Absorbs (n : Nfa) (id : Nat) (c c' : Collapsing) : Prop where
  within : ∀ s, (c'.graph n).Reach n.start s → (c.graph n).Reach n.start s
  settled : ∀ s, s ≠ id → c.Settled n.start s → c'.Settled n.start s

theorem Absorbs.refl (c : Collapsing) : Absorbs n id c c := ⟨fun _ h => h, fun _ _ h => h⟩

theorem Absorbs.trans {c₁ c₂ c₃ : Collapsing} (h : Absorbs n id c₁ c₂) (h' : Absorbs n id c₂ c₃) :
    Absorbs n id c₁ c₃ where
  within s reach := h.within s (h'.within s reach)
  settled s other before := h'.settled s other (h.settled s other before)

/-- The entries after a merge are the edges after it. -/
theorem Inherits.entered {b : Arena} {after : Array (List Nat)}
    (inh : Inherits (c.emptied id target) b c.entries after id target guards
      (c.arena.targets target)) (h : c.Keeps n)
    (merges : Graph.Merges (c.graph n) (graphOf b n.guards) n.start id target)
    {s u : Nat} (other : s ≠ target) :
    u ∈ entriesOf after s ↔ (graphOf b n.guards).Reach n.start u ∧ s ∈ b.targets u := by
  have stays : (graphOf b n.guards).Reach n.start id :=
    merges.reach_iff.mpr ⟨merges.reach, Ne.symm merges.apart⟩
  have gained : s ∈ b.targets id ↔ s ∈ c.arena.targets id ∨ s ∈ c.arena.targets target := by
    apply (merges.into s).trans
    exact or_congr_left (and_iff_left other)
  by_cases same : u = id
  · -- What the state inherits is noted; its other edges were.
    subst same
    have before := h.entered s u
    by_cases inherited : s ∈ c.arena.targets target
    · have noted := (inh.noted s inherited u).mpr (.inr rfl)
      exact iff_of_true noted ⟨stays, gained.mpr (.inr inherited)⟩
    · rw [inh.kept s inherited, before, gained, or_iff_left inherited]
      exact and_congr_left fun _ => iff_of_true merges.reach stays
  · by_cases lost : u = target
    · subst lost
      have none : b.targets u = [] := merges.gone
      rw [none]
      have before := h.entered s u
      by_cases inherited : s ∈ c.arena.targets u
      · rw [inh.noted s inherited]
        tauto
      · rw [inh.kept s inherited, before]
        tauto
    · have edges : b.targets u = c.arena.targets u := merges.other u same lost
      have before := h.entered s u
      rw [edges, merges.reach_iff]
      by_cases inherited : s ∈ c.arena.targets target
      · rw [inh.noted s inherited, before]
        tauto
      · rw [inh.kept s inherited, before]
        tauto

/-- Where a target loses the merged state as an entry it has `id` as one, so only `id` can have a
new target to merge. -/
theorem Inherits.settled {b : Arena} {after : Array (List Nat)}
    (inh : Inherits (c.emptied id target) b c.entries after id target guards
      (c.arena.targets target))
    (merges : Graph.Merges (c.graph n) (graphOf b n.guards) n.start id target)
    (room : target < after.size) {accept merged : Nat} {gone : Array Bool} {s : Nat}
    (other : s ≠ id) (before : c.Settled n.start s) :
    Settled ⟨b, accept, after.set target [] room, gone, merged⟩ n.start s := by
  intro t edge hm
  by_cases gone : s = target
  · subst gone
    have none : b.targets s = [] := merges.gone
    rw [none] at edge
    cases edge
  · have edges : b.targets s = c.arena.targets s := merges.other s other gone
    have entries := hm.entries
    rw [entriesOf_set] at entries
    split at entries
    · cases entries
    · have old : t ∉ c.arena.targets target := by
        intro inherited
        have known := (inh.noted t inherited id).mpr (.inr rfl)
        rw [entries, List.mem_singleton] at known
        exact other known.symm
      apply before t (edges ▸ edge)
      exact ⟨hm.apart, hm.first, (inh.marks_eq t).symm.trans hm.free,
        (inh.kept t old).symm.trans entries⟩

/-- **A merge keeps what holds all along**, and takes only the merged state out of reach. -/
theorem merge_keeps (h : c.Keeps n) (reach : (c.graph n).Reach n.start id)
    (edge : target ∈ c.arena.targets id) (hm : c.Mergeable n.start id target) :
    ∃ c', c.merge id target = .ok c' ∧ c'.Keeps n ∧ Absorbs n id c c' ∧
      ∀ s, (c'.graph n).Reach n.start s ↔ (c.graph n).Reach n.start s ∧ s ≠ target := by
  have hid : id < c.arena.size := Arena.lt_of_mem_targets edge
  have ht : target < c.arena.size := h.sound.edges id target edge
  have hid' : id < (c.arena.rewire target fun _ => []).size := by rwa [Arena.size_rewire]
  have sound := (h.sound.shrink ht _ fun _ => List.nil_sublist _).shrink hid' (·.erase target)
    fun _ => List.erase_sublist
  obtain ⟨b, after, hi, inh⟩ := inherit_spec target (c.arena.targets target) c.entries
    sound (size_emptied.symm ▸ hid)
    (h.entries.trans (h.size.symm.trans size_emptied.symm))
    (fun t ht => size_emptied.symm ▸ h.sound.edges target t ht)
  have merges := Inherits.merges h reach edge hm inh
  have room : target < after.size := by rw [inh.entries, h.entries, ← h.size]; exact ht
  have room' : target < c.gone.size := by rw [h.gone, ← h.size]; exact ht
  refine ⟨⟨b, if target = c.accept then id else c.accept, after.set target [] room,
    c.gone.set target true room', c.merged + 1⟩, ?_, ?_, ?_, fun s => merges.reach_iff⟩
  · obtain ⟨arena, accept, entries, gone, merged⟩ := c
    rw [merge, Arena.edges_of_lt ht, ok_bind, Arena.setEdges_of_lt ht, ok_bind,
      Arena.setEdges_of_lt hid', ok_bind, hi, ok_bind]
    simp only [store_of_lt room, store_of_lt room', ok_bind]
    rfl
  · constructor
    case size => exact inh.size.trans (size_emptied.trans h.size)
    case sound => exact inh.sound
    case marks => exact fun s => (inh.marks_eq s).trans (h.marks s)
    case accept =>
      simp only
      split
      · exact h.size ▸ hid
      · exact h.accept
    case entries => exact (Array.size_set room).trans (inh.entries.trans h.entries)
    case gone => exact (Array.size_set room').trans h.gone
    case entered =>
      intro s u
      rw [entriesOf_set]
      split
      · next same =>
        have none : ¬ ((graphOf b n.guards).Reach n.start u ∧ s ∈ b.targets u) := fun both =>
          (merges.reach_iff.mp (both.1.tail both.2)).2 same
        exact iff_of_false (by simp) none
      · next other => exact inh.entered h merges other
    case once => exact nodup_entriesOf_set room (inh.once h.once) List.nodup_nil
    case stays =>
      intro s hs
      apply Iff.trans _ merges.reach_iff.symm
      rw [Array.getElem?_set, ← h.stays s hs]
      split
      · next same => simp [same]
      · next other => exact (and_iff_left (Ne.symm other)).symm
    case shrinks =>
      have last := h.shrinks.merge merges
      rw [Graph.standsFor] at last
      simp only [eq_comm] at last ⊢
      exact last
  · exact ⟨fun s reach => (merges.reach_iff.mp reach).1,
      fun s other before => inh.settled merges room other before⟩

/-- Absorbing ends when nothing more can be merged; every merge leaves less in reach. -/
theorem absorb_keeps (hid : id < n.size) (fuel : Nat) : ∀ {c : Collapsing} {l : List Nat},
    c.Keeps n → (c.graph n).Reach n.start id → (∀ s, (c.graph n).Reach n.start s → s ∈ l) →
    l.length < fuel →
    ∃ c', absorb n.start id fuel c = .ok c' ∧ c'.Keeps n ∧ Absorbs n id c c' ∧
      c'.Settled n.start id := by
  induction fuel with
  | zero =>
    intro c l _ _ _ short
    exact absurd short (Nat.not_lt_zero _)
  | succ fuel ih =>
    intro c l h reach all short
    have hid : id < c.arena.size := h.size.symm ▸ hid
    obtain ⟨o, ho, some', none'⟩ := firstMergeable_spec c n.start id
      (c.arena.targets id) (h.sound.edges id) (h.entries.trans h.size.symm)
    cases o with
    | none =>
      refine ⟨c, ?_, h, .refl c, none' rfl⟩
      rw [absorb, Arena.edges_of_lt hid, ok_bind, ho]
      rfl
    | some target =>
      obtain ⟨edge, hm⟩ := some' target rfl
      obtain ⟨c₁, hc, h₁, absorbs₁, reach₁⟩ := merge_keeps h reach edge hm
      have known : target ∈ l := all target (reach.tail edge)
      obtain ⟨c', ha, h', absorbs, settled⟩ := ih (l := l.erase target) h₁
        ((reach₁ id).mpr ⟨reach, Ne.symm hm.apart⟩)
        (fun s hs => (List.mem_erase_of_ne ((reach₁ s).mp hs).2).mpr (all s ((reach₁ s).mp hs).1))
        (by rw [List.length_erase_of_mem known]; have := List.length_pos_of_mem known; omega)
      refine ⟨c', ?_, h', absorbs₁.trans absorbs, settled⟩
      rw [absorb, Arena.edges_of_lt hid, ok_bind, ho]
      simp only [ok_bind, hc, ha]

theorem Keeps.reach_lt (h : c.Keeps n) (start : n.start < n.size) {s : Nat}
    (reach : (c.graph n).Reach n.start s) : s < n.size := by
  cases reach with
  | refl => exact start
  | tail _ edge => exact h.size ▸ h.sound.edges _ _ edge

/-- The visit of an order of states that were in reach before the collapse. A state of the order
that is still in reach when the visit is over was so at its turn, and nothing that comes after
gives it a new target to merge. -/
theorem visit_keeps (start : n.start < n.size) (order : List Nat) : ∀ {c : Collapsing},
    c.Keeps n → (∀ id ∈ order, id < n.size ∧ n.graph.Reach n.start id) →
    ∃ c', visit n.start order c = .ok c' ∧ c'.Keeps n ∧
      (∀ s, (c'.graph n).Reach n.start s → (c.graph n).Reach n.start s) ∧
      ∀ s, (c'.graph n).Reach n.start s → s ∈ order ∨ c.Settled n.start s →
        c'.Settled n.start s := by
  induction order with
  | nil => exact fun {c} h _ => ⟨c, rfl, h, fun _ reach => reach, by simp⟩
  | cons id ids ih =>
    intro c h hids
    obtain ⟨⟨hid, reach⟩, hids⟩ := List.forall_mem_cons.mp hids
    have room : id < c.gone.size := h.gone.symm ▸ hid
    have turn := h.stays id reach
    rw [Array.getElem?_eq_getElem room] at turn
    rw [visit, lookup_of_lt room, ok_bind]
    cases gone : c.gone[id] with
    | true =>
      obtain ⟨c', hv, h', within, settled⟩ := ih h hids
      refine ⟨c', hv, h', within, fun s here done => ?_⟩
      have other : s ≠ id := by
        rintro rfl
        have := turn.mpr (within s here)
        simp [gone] at this
      exact settled s here (done.imp_left fun known => (List.mem_cons.mp known).resolve_left other)
    | false =>
      have here := turn.mp (by rw [gone])
      obtain ⟨c₁, ha, h₁, absorbs, settled₁⟩ := absorb_keeps hid (c.arena.size + 1)
        (l := List.range n.size) h here
        (fun s hs => List.mem_range.mpr (h.reach_lt start hs))
        (by rw [List.length_range, h.size]; exact Nat.lt_succ_self _)
      obtain ⟨c', hv, h', within, settled⟩ := ih h₁ hids
      refine ⟨c', by simp only [Bool.false_eq_true, if_false, ha, ok_bind, hv], h',
        fun s reach => absorbs.within s (within s reach), fun s reach done => ?_⟩
      apply settled s reach
      by_cases same : s = id
      · exact .inr (same ▸ settled₁)
      · exact done.imp (fun known => (List.mem_cons.mp known).resolve_left same)
          (absorbs.settled s same)

end Collapsing

/-- A collapse that has the entries to begin with. -/
def Collapsing.initial (n : Nfa) (entries : Array (List Nat)) : Collapsing :=
  ⟨n.arena, n.accept, entries, Array.replicate n.size false, 0⟩

theorem initial_keeps (v : n.Valid) (nodup : ∀ s, (n.graph.targets s).Nodup) :
    ∃ order entries, n.reachable = .ok order ∧ (∀ s, s ∈ order ↔ n.graph.Reach n.start s) ∧
      n.entriesFrom order (Array.replicate n.size []) = .ok entries ∧
      (Collapsing.initial n entries).Keeps n := by
  obtain ⟨order, ho, below, reach⟩ := reachable_spec v
  obtain ⟨entries, he, size, spec, once⟩ := entriesFrom_spec v order
    (Array.replicate n.size []) (by simp) below
  have none : ∀ s, entriesOf (Array.replicate n.size []) s = [] := by
    intro s
    simp only [entriesOf, Array.getElem?_replicate]
    split <;> rfl
  refine ⟨order, entries, ho, reach, he, ?_⟩
  constructor
  case size => rfl
  case sound => exact ⟨fun s => v.edges s, nodup, v.guards⟩
  case marks => exact fun _ => rfl
  case accept => exact v.accept
  case entries => exact size
  case gone => exact Array.size_replicate
  case entered =>
    intro s u
    apply (spec s u).trans
    rw [none, reach]
    exact or_iff_right List.not_mem_nil
  case once => exact once fun s => (none s).symm ▸ List.nodup_nil
  case stays =>
    intro s hs
    have inside : s < n.size := below s ((reach s).mpr hs)
    exact iff_of_true (by simp [Collapsing.initial, inside]) hs
  case shrinks => exact .none

theorem collapse_eq {order : List Nat} {entries : Array (List Nat)} {c : Collapsing}
    (ho : n.reachable = .ok order)
    (he : n.entriesFrom order (Array.replicate n.size []) = .ok entries)
    (hv : Collapsing.visit n.start order (.initial n entries) = .ok c) :
    n.collapse = .ok (c.merged, ⟨c.arena, n.guards, n.start, c.accept⟩) := by
  obtain ⟨arena, guards, start, accept⟩ := n
  simp only [Collapsing.initial] at hv
  rw [collapse, ho, ok_bind, he, ok_bind]
  simp only [hv, ok_bind]
  rfl

/-- A collapse comes to an end on every automaton whose ids are valid and that has no edge
twice, and no state that can be reached is left with a target to merge. -/
theorem collapse_keeps (v : n.Valid) (nodup : ∀ s, (n.graph.targets s).Nodup) :
    ∃ c : Collapsing, n.collapse = .ok (c.merged, ⟨c.arena, n.guards, n.start, c.accept⟩) ∧
      c.Keeps n ∧ ∀ s, (c.graph n).Reach n.start s → c.Settled n.start s := by
  obtain ⟨order, entries, ho, reach, he, first⟩ := initial_keeps v nodup
  obtain ⟨c, hv, h, _, settled⟩ := Collapsing.visit_keeps v.start order first fun id hid =>
    ⟨first.reach_lt v.start ((reach id).mp hid), (reach id).mp hid⟩
  refine ⟨c, collapse_eq ho he hv, h, fun s here => ?_⟩
  exact settled s here (.inl ((reach s).mpr (h.shrinks.reach here)))

theorem Collapsing.Keeps.valid {c : Collapsing} (h : c.Keeps n) (v : n.Valid) :
    Nfa.Valid ⟨c.arena, n.guards, n.start, c.accept⟩ where
  start := Nat.lt_of_lt_of_eq v.start h.size.symm
  accept := Nat.lt_of_lt_of_eq h.accept h.size.symm
  edges := h.sound.edges
  guards := h.sound.marks

/-- **Collapsing changes nothing that is accepted.** It comes to an end on every automaton whose
ids are valid and that has no edge twice. -/
theorem collapse_accepts (v : n.Valid) (nodup : ∀ s, (n.graph.targets s).Nodup) :
    ∃ merged n', n.collapse = .ok (merged, n') ∧ n'.Valid ∧ n'.size = n.size ∧
      n'.guards = n.guards ∧ n'.start = n.start ∧ (∀ s, n'.graph.guard s = n.graph.guard s) ∧
      ∀ text, n'.Accepts text ↔ n.Accepts text := by
  obtain ⟨c, hc, h, _⟩ := collapse_keeps v nodup
  exact ⟨c.merged, _, hc, h.valid v, h.size, rfl, rfl, fun s => h.shrinks.guard,
    fun _ => h.shrinks.run_iff⟩

end Nfa

end WholeMatch
