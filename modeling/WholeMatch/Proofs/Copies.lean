import Mathlib.Data.Finset.Dedup
import Mathlib.Data.Finset.Range
import Mathlib.Data.Set.Card
import Mathlib.Data.Set.Function
import Mathlib.Order.Interval.Set.Defs
import WholeMatch.Proofs.Cloning

namespace WholeMatch

namespace Arena

/-- The edges have targets, and none is there twice. -/
structure Valid (a : Arena) : Prop where
  edges : ∀ s ∈ a.states, ∀ t ∈ s.edges, t < a.size
  nodup : ∀ s ∈ a.states, s.edges.Nodup

/-- The exit of a fragment, and what is reachable from its entry without going on behind it. -/
def Inside (a : Arena) (f : Fragment) : Set Nat :=
  {s | s = f.stop ∨ Relation.ReflTransGen (fun s t => s ≠ f.stop ∧ t ∈ a.targets s) f.start s}

/-- `b` is `a` with a copy of the fragment `f` behind it, where the state `s` of the fragment has
the copy `image s`. -/
structure Copied (a : Arena) (f : Fragment) (b : Arena) (f' : Fragment) (image : Nat → Nat) :
    Prop where
  kept : ∀ s, s < a.size → b.states[s]? = a.states[s]?
  bijective : Set.BijOn image (a.Inside f) (Set.Ico a.size b.size)
  entry : image f.start = f'.start
  exit : image f.stop = f'.stop
  guard : ∀ s ∈ a.Inside f, b.mark (image s) = a.mark s
  edges : ∀ s ∈ a.Inside f, s ≠ f.stop → b.targets (image s) = (a.targets s).map image
  loose : b.targets f'.stop = []
  forward : ∀ s, s < a.size → ∀ t ∈ b.targets s, t < a.size
  backward : ∀ s, a.size ≤ s → ∀ t ∈ b.targets s, a.size ≤ t

variable {a b : Arena} {f f' : Fragment} {s t o c guards : Nat} {T : Nat → Prop}
  {done : Nat → List Nat} {copies : List (Nat × Nat)}

theorem states_eq (h : s < a.size) : a.states[s]? = some ⟨a.mark s, a.targets s⟩ := by
  have room : s < a.states.size := h
  simp [mark, targets, room]

theorem Grows.states (h : a.Grows b) (hs : s < a.size) : b.states[s]? = a.states[s]? := by
  rw [states_eq hs, states_eq (Nat.lt_of_lt_of_le hs h.size), h.mark s hs, h.targets s hs]

namespace Valid

/-- Every id has the edges of a state, or none. -/
theorem targets_of_forall {P : List Nat → Prop} (h : ∀ s ∈ a.states, P s.edges) (none : P [])
    (i : Nat) : P (a.targets i) := by
  unfold targets
  cases hi : a.states[i]? with
  | none => exact none
  | some s => exact h s (Array.mem_of_getElem? hi)

/-- There are only so many ids of guards. -/
theorem sound (h : a.Valid) : ∃ guards, a.Sound guards := by
  obtain ⟨guards, below⟩ := (a.states.toList.filterMap State.guard).toFinset.exists_nat_subset_range
  refine ⟨guards, ?_, ?_, ?_⟩
  · exact targets_of_forall (P := fun ts => ∀ t ∈ ts, t < a.size) h.edges (by simp)
  · exact targets_of_forall h.nodup List.nodup_nil
  · intro s g hm
    obtain ⟨state, there, hg⟩ := Option.bind_eq_some_iff.mp hm
    have member : state ∈ a.states.toList := (Array.mem_of_getElem? there).val
    exact Finset.mem_range.mp (below (List.mem_toFinset.mpr
      (List.mem_filterMap.mpr ⟨state, member, hg⟩)))

end Valid

theorem stop_inside : f.stop ∈ a.Inside f := .inl rfl

theorem start_inside : f.start ∈ a.Inside f := .inr .refl

/-- Edges stay inside, up to the exit. -/
theorem Inside.next (hs : s ∈ a.Inside f) (hn : s ≠ f.stop) (ht : t ∈ a.targets s) :
    t ∈ a.Inside f :=
  .inr ((hs.resolve_left hn).tail ⟨hn, ht⟩)

/-- A fragment of an arena with valid ids is part of it. -/
theorem Inside.lt_size (sound : a.Sound guards) (entry : f.start < a.size)
    (exit : f.stop < a.size) (hs : s ∈ a.Inside f) : s < a.size := by
  rcases hs with rfl | reach
  · exact exit
  · cases reach with
    | refl => exact entry
    | tail _ step => exact sound.edges _ _ step.2

theorem Images.lookup_eq (h : Images a T guards done b copies) (hc : (o, c) ∈ copies) :
    copies.lookup o = some c := by
  cases found : copies.lookup o with
  | none => exact absurd (key hc) (lookup_eq_none found)
  | some d => rw [h.copy_eq hc (mem_of_lookup found)]

/-- The copy that a list of states with their copies gives a state. -/
def imageOf (copies : List (Nat × Nat)) (s : Nat) : Nat := (copies.lookup s).getD 0

theorem Images.imageOf_eq (h : Images a T guards done b copies) (hc : (o, c) ∈ copies) :
    imageOf copies o = c := by
  rw [imageOf, h.lookup_eq hc, Option.getD_some]

/-- Edges that were copied lead to the images of their targets. -/
theorem Images.map_eq (h : Images a T guards done b copies) (hc : (o, c) ∈ copies) :
    b.targets c = (done o).map (imageOf copies) := by
  have row : (done o).Forall₂ (fun t d => imageOf copies t = d) (b.targets c) :=
    (h.row o c hc).imp fun _ _ => h.imageOf_eq
  exact (List.forall₂_eq_eq_eq ▸ List.forall₂_map_left_iff.mpr row).symm

namespace Cloned

/-- What is inside a fragment has a copy. -/
theorem exists_copy (h : Cloned a T guards f done f' b copies) (hs : s ∈ a.Inside f) :
    ∃ c, (s, c) ∈ copies := by
  rcases hs with rfl | reach
  · exact ⟨f'.stop, h.last⟩
  · induction reach with
    | refl => exact ⟨f'.start, h.first⟩
    | @tail s t _ step ih =>
      obtain ⟨c, hc⟩ := ih
      obtain ⟨d, _, hd⟩ := h.forth s c hc t (h.complete s c hc step.1 ▸ step.2)
      exact ⟨d, hd⟩

/-- What is cloned is copied, if nothing but what is inside the fragment was met. -/
theorem copied (h : Cloned a (· ∈ a.Inside f) guards f done f' b copies) (sound : a.Sound guards) :
    a.Copied f b f' (imageOf copies) where
  kept s hs := h.grows.states hs
  bijective := by
    refine ⟨fun s hs => ?_, fun s hs s' hs' same => ?_, fun c hc => ?_⟩
    · obtain ⟨c, hc⟩ := h.exists_copy hs
      rw [h.imageOf_eq hc]
      exact ⟨(h.image s c hc).1, (h.image s c hc).2.1⟩
    · obtain ⟨c, hc⟩ := h.exists_copy hs
      obtain ⟨c', hc'⟩ := h.exists_copy hs'
      rw [h.imageOf_eq hc, h.imageOf_eq hc'] at same
      exact h.apart s s' c hc (same ▸ hc')
    · obtain ⟨o, ho⟩ := h.onto c hc.1 hc.2
      exact ⟨o, h.origin o c ho, h.imageOf_eq ho⟩
  entry := h.imageOf_eq h.first
  exit := h.imageOf_eq h.last
  guard s hs := by
    obtain ⟨c, hc⟩ := h.exists_copy hs
    rw [h.imageOf_eq hc, (h.image s c hc).2.2]
  edges s hs hn := by
    obtain ⟨c, hc⟩ := h.exists_copy hs
    rw [h.imageOf_eq hc, h.map_eq hc, h.complete s c hc hn]
  loose := h.loose
  forward s hs t ht := sound.edges s t (h.grows.targets s hs ▸ ht)
  backward := h.above

end Cloned

theorem few_inside (sound : a.Sound guards) (entry : f.start < a.size) (exit : f.stop < a.size) :
    Few (· ∈ a.Inside f) (a.Inside f).ncard := by
  have finite : (a.Inside f).Finite :=
    (Set.finite_lt_nat a.size).subset fun _ => Inside.lt_size sound entry exit
  intro l once inside
  have within : (l.toFinset : Set Nat) ⊆ a.Inside f := fun s hs =>
    inside s (List.mem_toFinset.mp hs)
  have all := Set.ncard_le_ncard within finite
  rwa [Set.ncard_coe_finset, List.toFinset_card_of_nodup once] at all

/-- A fragment has no more states than its arena. -/
theorem ncard_inside_le (sound : a.Sound guards) (entry : f.start < a.size)
    (exit : f.stop < a.size) : (a.Inside f).ncard ≤ a.size := by
  have within : a.Inside f ⊆ (Finset.range a.size : Set Nat) := fun _ hs =>
    Finset.mem_coe.mpr (Finset.mem_range.mpr (Inside.lt_size sound entry exit hs))
  have all := Set.ncard_le_ncard within (Finset.finite_toSet _)
  rwa [Set.ncard_coe_finset, Finset.card_range] at all

/-- **A clone is an exact copy** of what its original is made of, whatever circles the edges make,
wherever those of the exit lead, and whether or not the entry leads to the exit: it is appended to
the arena, and nothing else changes. There has to be room: ids are words, so what is appended must
leave no more states than there are words. -/
theorem cloneFragment_copies (valid : a.Valid) (entry : f.start < a.size)
    (exit : f.stop < a.size) (room : a.size + (a.Inside f).ncard ≤ words) :
    ∃ f' b image, a.cloneFragment f = .ok (f', b) ∧ a.Copied f b f' image := by
  obtain ⟨guards, sound⟩ := valid.sound
  obtain ⟨f', b, copies, done, cloned, h⟩ :=
    cloneFragment_cloned (T := (· ∈ a.Inside f)) sound (fun _ => Inside.lt_size sound entry exit)
      (few_inside sound entry exit) room start_inside stop_inside
      (fun _ hs hn _ ht => Inside.next hs hn ht)
  exact ⟨f', b, imageOf copies, cloned, h.copied sound⟩

/-- A fragment with a loop and a way back to its entry. Edges lead on from its exit, into it and
out of it, and a state behind it leads to it. -/
def knot : Arena :=
  ⟨#[⟨none, [1, 3]⟩, ⟨some 0, [2, 1]⟩, ⟨none, [0, 3]⟩, ⟨some 1, [4, 0]⟩, ⟨none, [1]⟩]⟩

theorem cloneFragment_copies_knot : knot.Valid ∧ knot.size + (knot.Inside ⟨0, 3⟩).ncard ≤ words ∧
    ∃ f' b image, knot.cloneFragment ⟨0, 3⟩ = .ok (f', b) ∧ knot.Copied ⟨0, 3⟩ b f' image := by
  have valid : knot.Valid := ⟨by decide, by decide⟩
  obtain ⟨_, sound⟩ := valid.sound
  have few := ncard_inside_le (f := ⟨0, 3⟩) sound (by decide) (by decide)
  have two : knot.size + knot.size ≤ words := by decide
  have room : knot.size + (knot.Inside ⟨0, 3⟩).ncard ≤ words := by omega
  exact ⟨valid, room, cloneFragment_copies valid (by decide) (by decide) room⟩

/-- The exit comes first, then the entry, then what is met from there on. -/
example : knot.cloneFragment ⟨0, 3⟩ = .ok (⟨6, 5⟩, ⟨knot.states ++
    #[⟨some 1, []⟩, ⟨none, [7, 5]⟩, ⟨some 0, [8, 7]⟩, ⟨none, [6, 5]⟩]⟩) := by
  decide

/-- Where there are as many states as words, the id of a new one is that of the first, and so the
clone of the first is the first. -/
theorem cloneFragment_wraps (all : a.size = words) :
    a.cloneFragment ⟨0, 0⟩ = .ok (⟨0, 0⟩, (a.alloc (a.mark 0)).2) := by
  have first : 0 < a.size := all ▸ Nat.zero_lt_succ _
  have wrapped : word a.states.size = 0 := by
    change word a.size = 0
    rw [all]
    rfl
  have again : a.alloc (a.mark 0) = (0, (a.alloc (a.mark 0)).2) := Prod.ext wrapped rfl
  rw [cloneFragment, state_of_lt first, ok_bind]
  simp only [if_true]
  rw [again]
  rfl

/-- An arena without room. -/
def full : Arena := ⟨.replicate 4294967296 ⟨none, []⟩⟩

/-- No state of the original has a copy that is new. -/
theorem cloneFragment_repeats_ids : full.Valid ∧
    ∃ b, full.cloneFragment ⟨0, 0⟩ = .ok (⟨0, 0⟩, b) ∧
      ∀ image, ¬ full.Copied ⟨0, 0⟩ b ⟨0, 0⟩ image := by
  have size : full.size = words := Array.size_replicate
  have blank : ∀ s ∈ full.states, s = ⟨none, []⟩ := fun s hs => (Array.mem_replicate.mp hs).2
  refine ⟨⟨fun s hs => ?_, fun s hs => ?_⟩, _, cloneFragment_wraps size, fun image h => ?_⟩
  · rw [blank s hs]
    simp
  · rw [blank s hs]
    exact List.nodup_nil
  · have new := h.bijective.mapsTo (start_inside (a := full) (f := ⟨0, 0⟩))
    have first : full.size ≤ image 0 := new.1
    have same : image 0 = 0 := h.entry
    have some : 0 < words := by decide
    omega

end Arena

end WholeMatch
