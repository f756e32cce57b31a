import Mathlib.Order.Bounds.Basic
import WholeMatch.Proofs.Ordering

/-! A breadth first order is never told how far a state is from the start, and yet it lists the
nearer ones first. What carries that is how states are discovered: a state stands where it does
because of the first state in the order that has an edge to it. -/

namespace WholeMatch

/-- Elements that are added to a list come in the order they are first met. -/
theorem idxOf_foldl_addNew {ts : List Nat} {x y : Nat} (hx : x ∈ ts)
    (before : ts.idxOf x < ts.idxOf y) : ∀ {l : List Nat}, x ∉ l → y ∉ l →
    (ts.foldl addNew l).idxOf x < (ts.foldl addNew l).idxOf y := by
  induction ts with
  | nil => cases hx
  | cons t ts ih =>
    intro l newx newy
    rw [List.foldl_cons]
    have other : t ≠ y := by
      rintro rfl
      rw [List.idxOf_cons_self] at before
      omega
    have newy' : y ∉ addNew l t := fun h => (mem_addNew.mp h).elim newy (Ne.symm other)
    by_cases now : t = x
    · subst now
      -- `t` is listed now, and `y` is not
      have longer := prefix_foldl_addNew ts (addNew l t)
      have listed := (longer.mem_iff_idxOf_lt_length t).mp (mem_addNew.mpr (.inr rfl))
      have unlisted := (longer.mem_iff_idxOf_lt_length y).not.mp newy'
      omega
    · have newx' : x ∉ addNew l t := fun h => (mem_addNew.mp h).elim newx (Ne.symm now)
      rw [List.idxOf_cons_ne ts now, List.idxOf_cons_ne ts other] at before
      exact ih ((List.mem_cons.mp hx).resolve_left (Ne.symm now)) (Nat.lt_of_succ_lt_succ before)
        newx' newy'

namespace Graph

variable {g : Graph} {start s t : Nat} {order : List Nat}

/-- From one state to the other by so many edges. -/
def Way (g : Graph) (k s t : Nat) : Prop := Power (fun u v => v ∈ g.targets u) k s t

/-- The fewest edges that lead from one state to the other. -/
def Distance (g : Graph) (s t d : Nat) : Prop := IsLeast {k | g.Way k s t} d

theorem way_zero : g.Way 0 s t ↔ s = t := Iff.rfl

theorem way_succ {k : Nat} : g.Way (k + 1) s t ↔ ∃ u, g.Way k s u ∧ t ∈ g.targets u :=
  Power.succ_last

theorem reach_iff_way : g.Reach s t ↔ ∃ k, g.Way k s t := by
  constructor
  · intro path
    induction path with
    | refl => exact ⟨0, way_zero.mpr rfl⟩
    | tail _ edge ih =>
      obtain ⟨k, way⟩ := ih
      exact ⟨k + 1, way_succ.mpr ⟨_, way, edge⟩⟩
  · rintro ⟨k, way⟩
    induction k generalizing t with
    | zero => exact way_zero.mp way ▸ .refl
    | succ k ih =>
      obtain ⟨u, way, edge⟩ := way_succ.mp way
      exact (ih way).tail edge

/-- Whatever can be reached has a distance. -/
theorem Reach.distance (h : g.Reach s t) : ∃ d, g.Distance s t d := by
  classical
  exact ⟨_, Nat.isLeast_find (reach_iff_way.mp h)⟩

/-- Of the states listed, `s` is the first with an edge to `t`. -/
structure Discovers (g : Graph) (start : Nat) (order : List Nat) (s t : Nat) : Prop where
  /-- The start is there before anything is discovered. -/
  fresh : t ≠ start
  listed : s ∈ order
  edge : t ∈ g.targets s
  first : ∀ r ∈ order, t ∈ g.targets r → order.idxOf s ≤ order.idxOf r

theorem mem_foldl_discover {us l : List Nat} :
    t ∈ us.foldl g.discover l ↔ t ∈ l ∨ ∃ u ∈ us, t ∈ g.targets u := by
  induction us generalizing l with
  | nil => simp
  | cons u us ih =>
    rw [List.foldl_cons, ih, discover, mem_foldl_addNew, or_assoc]
    simp

theorem prefix_foldl_discover (us l : List Nat) : l <+: us.foldl g.discover l := by
  induction us generalizing l with
  | nil => exact List.prefix_rfl
  | cons u us ih => exact (prefix_discover g l u).trans (ih _)

theorem nodup_discover {l : List Nat} (h : l.Nodup) (s : Nat) : (g.discover l s).Nodup :=
  List.foldlRecOn (g.targets s) addNew h fun _ h _ _ => nodup_addNew h

/-- What is listed when it is the turn of a state. -/
def listedAt (g : Graph) (start : Nat) (order : List Nat) (s : Nat) : List Nat :=
  (order.take (order.idxOf s)).foldl g.discover [start]

theorem mem_listedAt : t ∈ g.listedAt start order s ↔
    t = start ∨ ∃ r ∈ order, order.idxOf r < order.idxOf s ∧ t ∈ g.targets r := by
  rw [listedAt, mem_foldl_discover, List.mem_singleton]
  refine or_congr_right (exists_congr fun r => ?_)
  constructor
  · rintro ⟨earlier, edge⟩
    have hr := List.mem_of_mem_take earlier
    exact ⟨hr, (List.mem_take_iff_idxOf_lt hr).mp earlier, edge⟩
  · rintro ⟨hr, earlier, edge⟩
    exact ⟨(List.mem_take_iff_idxOf_lt hr).mpr earlier, edge⟩

theorem Discovers.unlisted (h : g.Discovers start order s t) :
    t ∉ g.listedAt start order s := by
  intro listed
  rcases mem_listedAt.mp listed with rfl | ⟨r, hr, earlier, edge⟩
  · exact h.fresh rfl
  · have := h.first r hr edge
    omega

namespace BreadthFirst

theorem once (h : g.BreadthFirst start order) : order.Nodup := by
  rw [← h.grows]
  exact List.foldlRecOn order g.discover (List.nodup_singleton start)
    fun _ once s _ => nodup_discover once s

theorem head (h : g.BreadthFirst start order) : ∃ rest, order = start :: rest := by
  obtain ⟨rest, hr⟩ := prefix_foldl_discover (g := g) order [start]
  exact ⟨rest, (hr.trans h.grows).symm⟩

/-- What is listed at the turn of a state, with the targets of it, begins the order. -/
theorem prefix_listedAt (h : g.BreadthFirst start order) (hs : s ∈ order) :
    g.discover (g.listedAt start order s) s <+: order := by
  have turn : order.take (order.idxOf s + 1) = order.take (order.idxOf s) ++ [s] := by
    rw [List.take_add_one, List.getElem?_idxOf hs]
    rfl
  have further := prefix_foldl_discover (g := g) (order.drop (order.idxOf s + 1))
    ((order.take (order.idxOf s + 1)).foldl g.discover [start])
  rw [← List.foldl_append, List.take_append_drop, h.grows, turn, List.foldl_append] at further
  exact further

/-- What is listed at the turn of a state stands before what is not. -/
theorem before_of_listedAt (h : g.BreadthFirst start order) (hs : s ∈ order)
    (listed : t ∈ g.listedAt start order s) {u : Nat} (unlisted : u ∉ g.listedAt start order s) :
    order.idxOf t < order.idxOf u := by
  have begins : g.listedAt start order s <+: order :=
    (prefix_discover g _ s).trans (h.prefix_listedAt hs)
  have near := (begins.mem_iff_idxOf_lt_length t).mp listed
  have far := (begins.mem_iff_idxOf_lt_length u).not.mp unlisted
  omega

/-- Every state but the start is discovered from one of those listed. -/
theorem discovered (h : g.BreadthFirst start order) (ht : t ∈ order) (fresh : t ≠ start) :
    ∃ s, g.Discovers start order s t := by
  rw [← h.grows, mem_foldl_discover, List.mem_singleton] at ht
  obtain ⟨s, ⟨hs, edge⟩, first⟩ := (measure order.idxOf).wf.has_min
    {r | r ∈ order ∧ t ∈ g.targets r} (ht.resolve_left fresh)
  exact ⟨s, fresh, hs, edge, fun r hr leads => Nat.le_of_not_lt (first r ⟨hr, leads⟩)⟩

/-- **What is discovered from an earlier state stands earlier.** -/
theorem before (h : g.BreadthFirst start order) {s' t' : Nat}
    (first : g.Discovers start order s t) (second : g.Discovers start order s' t')
    (earlier : order.idxOf s < order.idxOf s') : order.idxOf t < order.idxOf t' :=
  h.before_of_listedAt second.listed
    (mem_listedAt.mpr (.inr ⟨s, first.listed, earlier, first.edge⟩)) second.unlisted

/-- What is discovered from one state stands in the order of its edges. -/
theorem before_iff_edges (h : g.BreadthFirst start order) {t' : Nat}
    (first : g.Discovers start order s t) (second : g.Discovers start order s t') :
    order.idxOf t < order.idxOf t' ↔ (g.targets s).idxOf t < (g.targets s).idxOf t' := by
  have begins := h.prefix_listedAt first.listed
  have place : ∀ {u}, g.Discovers start order s u →
      order.idxOf u = ((g.targets s).foldl addNew (g.listedAt start order s)).idxOf u :=
    fun found => (begins.idxOf_eq_of_mem (mem_foldl_addNew.mpr (.inr found.edge))).symm
  rw [place first, place second]
  constructor
  · intro earlier
    rcases Nat.lt_trichotomy ((g.targets s).idxOf t) ((g.targets s).idxOf t') with lt | same | gt
    · exact lt
    · rw [(List.idxOf_inj first.edge).mp same] at earlier
      exact absurd earlier (Nat.lt_irrefl _)
    · have later := idxOf_foldl_addNew second.edge gt second.unlisted first.unlisted
      exact absurd earlier (Nat.lt_asymm later)
  · exact fun lt => idxOf_foldl_addNew first.edge lt first.unlisted second.unlisted

/-- **A nearer state stands before one that is farther.** By induction on the way to the nearer one:
the state before it on that way stands before the one that the other is discovered from, so the
nearer one is listed when the other is discovered. -/
theorem nearer_before (h : g.BreadthFirst start order) (k : Nat) : ∀ {s t : Nat},
    g.Way k start s → t ∈ order → (∀ j ≤ k, ¬ g.Way j start t) →
    order.idxOf s < order.idxOf t := by
  induction k with
  | zero =>
    intro s t way ht far
    obtain ⟨rest, rfl⟩ := h.head
    obtain rfl := way_zero.mp way
    have other : start ≠ t := fun same => far 0 (Nat.le_refl 0) (way_zero.mpr same)
    rw [List.idxOf_cons_self, List.idxOf_cons_ne rest other]
    exact Nat.succ_pos _
  | succ k ih =>
    intro s t way ht far
    have fresh : t ≠ start := fun same => far 0 (Nat.zero_le _) (way_zero.mpr same.symm)
    obtain ⟨u, way, edge⟩ := way_succ.mp way
    obtain ⟨v, found⟩ := h.discovered ht fresh
    have farther : ∀ j ≤ k, ¬ g.Way j start v := fun j le way' =>
      far (j + 1) (Nat.succ_le_succ le) (way_succ.mpr ⟨v, way', found.edge⟩)
    have earlier := ih way found.listed farther
    have hu : u ∈ order := (h.mem u).mpr (reach_iff_way.mpr ⟨k, way⟩)
    exact h.before_of_listedAt found.listed (mem_listedAt.mpr (.inr ⟨u, hu, earlier, edge⟩))
      found.unlisted

/-- A state is no farther than one that stands behind it. -/
theorem distance_le (h : g.BreadthFirst start order) {d e : Nat} (hs : s ∈ order)
    (near : g.Distance start s d) (far : g.Distance start t e)
    (earlier : order.idxOf s < order.idxOf t) : d ≤ e := by
  apply Nat.le_of_not_lt
  intro nearer
  have farther : ∀ j ≤ e, ¬ g.Way j start s := fun j le way =>
    Nat.not_lt.mpr (near.2 way) (Nat.lt_of_le_of_lt le nearer)
  exact Nat.lt_asymm earlier (h.nearer_before e far.1 hs farther)

/-- A state is one edge farther than the one it is discovered from. -/
theorem distance_succ (h : g.BreadthFirst start order) (found : g.Discovers start order s t)
    {d : Nat} (far : g.Distance start s d) : g.Distance start t (d + 1) := by
  refine ⟨way_succ.mpr ⟨s, far.1, found.edge⟩, ?_⟩
  rintro (_ | k) (way : g.Way _ start t)
  · exact absurd (way_zero.mp way).symm found.fresh
  · obtain ⟨u, way, edge⟩ := way_succ.mp way
    have hu : u ∈ order := (h.mem u).mpr (reach_iff_way.mpr ⟨k, way⟩)
    apply Nat.succ_le_succ
    apply Nat.le_of_not_lt
    intro nearer
    -- the last but one on the way would stand before the state that is first with an edge to `t`
    have farther : ∀ j ≤ k, ¬ g.Way j start s := fun j le way' =>
      Nat.not_lt.mpr (far.2 way') (Nat.lt_of_le_of_lt le nearer)
    have earlier := h.nearer_before k way found.listed farther
    exact Nat.not_lt.mpr (found.first u hu edge) earlier

end BreadthFirst

/-- The states that can be reached, once each and nearest first. -/
structure NearestFirst (g : Graph) (start : Nat) (order : List Nat) : Prop where
  once : order.Nodup
  mem : ∀ s, s ∈ order ↔ g.Reach start s
  head : order.head? = some start
  /-- No state is farther than one that stands behind it. -/
  nearer : order.Pairwise fun s t =>
    ∃ d e, g.Distance start s d ∧ g.Distance start t e ∧ d ≤ e
  /-- Every state but the start is discovered from one that is an edge nearer. -/
  discovered : ∀ t ∈ order, t ≠ start → ∃ s d, g.Discovers start order s t ∧
    g.Distance start s d ∧ g.Distance start t (d + 1)
  /-- What is discovered from an earlier state stands earlier. -/
  turns : ∀ s s' t t', g.Discovers start order s t → g.Discovers start order s' t' →
    order.idxOf s < order.idxOf s' → order.idxOf t < order.idxOf t'
  /-- What is discovered from one state stands in the order of its edges. -/
  edges : ∀ s t t', g.Discovers start order s t → g.Discovers start order s t' →
    (order.idxOf t < order.idxOf t' ↔ (g.targets s).idxOf t < (g.targets s).idxOf t')

theorem BreadthFirst.nearestFirst (h : g.BreadthFirst start order) :
    g.NearestFirst start order := by
  constructor
  case once => exact h.once
  case mem => exact h.mem
  case head =>
    obtain ⟨rest, rfl⟩ := h.head
    rfl
  case nearer =>
    apply List.pairwise_iff_getElem.mpr
    intro i j hi hj lt
    have reach : ∀ {s}, s ∈ order → ∃ d, g.Distance start s d := fun hs =>
      ((h.mem _).mp hs).distance
    obtain ⟨d, near⟩ := reach (List.getElem_mem hi)
    obtain ⟨e, far⟩ := reach (List.getElem_mem hj)
    refine ⟨d, e, near, far, h.distance_le (List.getElem_mem hi) near far ?_⟩
    rwa [h.once.idxOf_getElem i hi, h.once.idxOf_getElem j hj]
  case discovered =>
    intro t ht fresh
    obtain ⟨s, found⟩ := h.discovered ht fresh
    obtain ⟨d, far⟩ := ((h.mem s).mp found.listed).distance
    exact ⟨s, d, found, far, h.distance_succ found far⟩
  case turns => exact fun _ _ _ _ first second => h.before first second
  case edges => exact fun _ _ _ first second => h.before_iff_edges first second

end Graph

namespace Nfa

/-- **The states that can be reached are listed once each, nearest first.** Whatever edges there
are, circles and edges given twice among them, the start comes first, no state stands before one
that is nearer to it, and those that are discovered from one state stand in the order of its
edges. -/
theorem reachable_nearest_first {n : Nfa} (v : n.Valid) :
    ∃ order, n.reachable = .ok order ∧ n.graph.NearestFirst n.start order := by
  obtain ⟨order, hr, breadthFirst⟩ := reachable_breadthFirst v
  exact ⟨order, hr, breadthFirst.nearestFirst⟩

/-- An automaton in which states are found again and again: by an edge given twice, from themselves,
on the way back to the start, and from states as far as they are or farther. One state is out of
reach. -/
def detours : Nfa where
  arena := ⟨#[⟨none, [2, 1, 2]⟩, ⟨none, [3, 0]⟩, ⟨none, [2, 4, 3]⟩, ⟨some 0, [5, 1]⟩,
    ⟨none, [5, 3, 0]⟩, ⟨none, [3]⟩, ⟨some 0, [5, 6]⟩]⟩
  guards := #[.item ⟨.literal 'a', "a"⟩]
  start := 0
  accept := 5

theorem detours_valid : detours.Valid := by decide

theorem detours_nearest_first : detours.Valid ∧
    ∃ order, detours.reachable = .ok order ∧ detours.graph.NearestFirst detours.start order :=
  ⟨detours_valid, reachable_nearest_first detours_valid⟩

example : detours.reachable = .ok [0, 2, 1, 4, 3, 5] := by cbv

end Nfa

end WholeMatch
