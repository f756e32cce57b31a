import WholeMatch.Proofs.Repeating

namespace WholeMatch

mutual

/-- The guards of a term, from left to right. -/
def Term.guards : Term → List Guard
  | .guard g _ _ => [g]
  | .group bs _ _ _ => branchesGuards bs

def branchGuards : List Term → List Guard
  | [] => []
  | t :: ts => t.guards ++ branchGuards ts

def branchesGuards : List (List Term) → List Guard
  | [] => []
  | b :: bs => branchGuards b ++ branchesGuards bs

end

mutual

theorem Term.plain_iff (t : Term) : t.plain = true ↔ ∀ g ∈ t.guards, g.plain = true := by
  match t with
  | .guard g _ _ => simp [Term.plain, Term.guards]
  | .group bs _ _ _ => rw [Term.plain, Term.guards, plainBranches_iff_guards bs]

theorem plainBranch_iff (ts : List Term) :
    plainBranch ts = true ↔ ∀ g ∈ branchGuards ts, g.plain = true := by
  match ts with
  | [] => simp [plainBranch, branchGuards]
  | t :: ts =>
    rw [plainBranch, branchGuards, Bool.and_eq_true, t.plain_iff, plainBranch_iff ts,
      List.forall_mem_append]

theorem plainBranches_iff_guards (bs : List (List Term)) :
    plainBranches bs = true ↔ ∀ g ∈ branchesGuards bs, g.plain = true := by
  match bs with
  | [] => simp [plainBranches, branchesGuards]
  | b :: bs =>
    rw [plainBranches, branchesGuards, Bool.and_eq_true, plainBranch_iff b,
      plainBranches_iff_guards bs, List.forall_mem_append]

end

/-- How many states a repetition is written out in, if what it repeats has so many. -/
def Repeat.footprint (rep : Repeat) (atom : Nat) : Nat := atom * Nat.max rep.written 1 + 2

mutual

/-- How many states are added for a term, at most: clones leave out what is not in reach. -/
def Term.footprint : Term → Nat
  | .guard _ rep _ => rep.footprint 2
  | .group bs _ rep _ => rep.footprint (branchesFootprint bs)

def branchFootprint : List Term → Nat
  | [] => 2
  | t :: ts => t.footprint + followingFootprint ts

def followingFootprint : List Term → Nat
  | [] => 0
  | t :: ts => t.footprint + followingFootprint ts

def branchesFootprint : List (List Term) → Nat
  | [] => 2
  | b :: bs => if bs.isEmpty then branchFootprint b
      else 2 + (branchFootprint b + alternativesFootprint bs)

def alternativesFootprint : List (List Term) → Nat
  | [] => 0
  | b :: bs => branchFootprint b + alternativesFootprint bs

end

/-- How many states a pattern is written out in, at most. -/
def Pattern.footprint (p : Pattern) : Nat := branchesFootprint p.branches

namespace Draft

variable {d d' d₁ d₂ d₃ : Draft} {f inner outer : Fragment} {gs gs' : List Guard}
  {more more' : List Nat} {k : Nat}
  {live live' : Prop} {S X Y : Nat → Prop} {Q R : Array Char → Nat → Nat → Prop}

def graph (d : Draft) : Graph := graphOf d.arena d.guards

/-- The arena is sound, and there are no more guards than states. -/
structure Sound (d : Draft) : Prop where
  arena : d.arena.Sound d.guards.size
  guards : d.guards.size ≤ d.arena.size

theorem Sound.empty : Draft.empty.Sound := ⟨Arena.Sound.empty, Nat.le_refl 0⟩

/-- States and guards are added, and nothing else is changed but the edges of states in `X`. -/
structure Extends (X : Nat → Prop) (gs : List Guard) (d d' : Draft) : Prop where
  arena : Arena.Changes X d.arena d'.arena
  guards : d'.guards.toList = d.guards.toList ++ gs

theorem Extends.trans (h : Extends X gs d d₁) (h' : Extends Y gs' d₁ d₂)
    (sub : ∀ s, s < d.arena.size → Y s → X s) : Extends X (gs ++ gs') d d₂ where
  arena := h.arena.trans h'.arena sub
  guards := by rw [h'.guards, h.guards, List.append_assoc]

theorem Extends.mono (h : Extends X gs d d') (sub : ∀ s, X s → Y s) : Extends Y gs d d' :=
  { h with arena := h.arena.mono sub }

theorem Extends.alike (h : Extends X gs d d') (sound : d.Sound)
    (inside : ∀ s, S s → s < d.arena.size) {stop : Nat} (only : ∀ s, S s → X s → s = stop) :
    Graph.Alike d.graph d'.graph S stop where
  guard s hs := by
    simp only [graph, graphOf, h.arena.mark s (inside s hs)]
    cases hm : d.arena.mark s with
    | none => rfl
    | some g =>
      have inside : g < d.guards.toList.length := sound.arena.marks s g hm
      simp only [Option.bind_some, ← Array.getElem?_toList, h.guards,
        List.getElem?_append_left inside]
  targets s hs hn := h.arena.targets s (inside s hs) fun hx => hn (only s hs hx)

/-- The states that a draft has and another has not. -/
def Added (d d' : Draft) (s : Nat) : Prop := d.arena.size ≤ s ∧ s < d'.arena.size

/-- The fragment `f` was added: it lies in the states that are new, nothing leads to its start,
and nothing is tied to its stop. When it is `live`, it drains. -/
structure Builds (live : Prop) (d d' : Draft) (f : Fragment) (gs : List Guard)
    (R : Array Char → Nat → Nat → Prop) : Prop where
  grows : Extends (fun _ => False) gs d d'
  sound : d'.Sound
  apart : f.start ≠ f.stop
  unentered : d'.arena.Unentered f.start
  untied : d'.arena.targets f.stop = []
  holds : d'.graph.Holds live (d.Added d') f R

theorem Builds.congr (h : Builds live d d' f gs Q) (same : ∀ text i j, Q text i j ↔ R text i j) :
    Builds live d d' f gs R :=
  { h with holds := h.holds.congr same }

theorem Builds.imp (h : Builds live d d' f gs R) (weaker : live' → live) :
    Builds live' d d' f gs R :=
  { h with holds := h.holds.imp weaker }

/-- Two states with an edge between them are crossed by entering the first. -/
theorem pair_crosses {g : Graph} {s t : Nat} {text : Array Char} {i j : Nat} (other : s ≠ t)
    (tied : g.targets s = [t]) (free : g.guard t = none) :
    g.Crosses text ⟨s, t⟩ i j ↔ g.Enters text s i j := by
  have onward : ∀ {p}, g.RunTo text t (s, p) (t, j) ↔ j = p := by
    intro p
    simp only [Graph.runTo_iff other, tied, List.mem_singleton, exists_eq_left,
      Graph.crosses_self free]
  constructor
  · rintro ⟨p, enters, run⟩
    rw [onward.mp run]
    exact enters
  · exact fun enters => ⟨j, enters, onward.mpr rfl⟩

/-- `b` has two states more, with an edge between them and the mark `m` on the first. -/
structure Pairs (a b : Arena) (m : Option Nat) : Prop where
  size : b.size = a.size + 2
  grows : a.Grows b
  mark : b.mark a.size = m
  free : b.mark (a.size + 1) = none
  first : b.targets a.size = [a.size + 1]
  last : b.targets (a.size + 1) = []
  unentered : b.Unentered a.size

theorem connect_pairs {a : Arena} {guards : Nat} (sound : a.Sound guards) {m : Option Nat}
    (hm : ∀ g, m = some g → g < guards) :
    ∃ b, ((a.alloc m).2.alloc none).2.connect a.size (a.size + 1) = .ok b ∧ b.Sound guards ∧
      Pairs a b m := by
  have size : ((a.alloc m).2.alloc none).2.size = a.size + 2 := by simp only [Arena.size_alloc]
  have room : a.size < ((a.alloc m).2.alloc none).2.size := by omega
  have alone : ((a.alloc m).2.alloc none).2.Unentered a.size :=
    (sound.unentered (Nat.le_refl _)).alloc.alloc
  have sound' := (sound.alloc m hm).alloc none (by simp)
  refine ⟨_, Arena.connect_of_lt room, sound'.withEdge room (by omega), ?_⟩
  constructor
  case size => rw [Arena.size_withEdge, size]
  case grows =>
    exact (Arena.grows_alloc.trans Arena.grows_alloc).withEdge (Nat.le_refl _) room
  case mark =>
    rw [Arena.mark_withEdge, Arena.mark_alloc, Arena.size_alloc, if_neg (by omega),
      Arena.mark_alloc, if_pos rfl]
  case free => rw [Arena.mark_withEdge, Arena.mark_alloc, Arena.size_alloc, if_pos rfl]
  case first =>
    rw [Arena.targets_withEdge room, if_pos rfl, Arena.targets_alloc, Arena.targets_alloc,
      Arena.targets_of_ge (Nat.le_refl _)]
    rfl
  case last =>
    rw [Arena.targets_withEdge room, if_neg (by omega), Arena.targets_alloc, Arena.targets_alloc,
      Arena.targets_of_ge (by omega)]
  case unentered => exact alone.withEdge room (Nat.ne_of_lt (Nat.lt_succ_self _))

/-- Two states like that are crossed by entering the first. -/
theorem Pairs.builds {a b : Arena} {m : Option Nat} {guards guards' : Array Guard}
    (h : Pairs a b m) (sound : Sound ⟨b, guards'⟩) (more : guards'.toList = guards.toList ++ gs) :
    Builds True ⟨a, guards⟩ ⟨b, guards'⟩ ⟨a.size, a.size + 1⟩ gs
      fun text => (graphOf b guards').Enters text a.size := by
  have size := h.size
  have first : (graphOf b guards').targets a.size = [a.size + 1] := h.first
  have apart : a.size ≠ a.size + 1 := Nat.ne_of_lt (Nat.lt_succ_self _)
  refine ⟨⟨h.grows.changes, more⟩, sound, apart, h.unentered, h.last, ?_⟩
  constructor
  case start => exact ⟨Nat.le_refl _, by simp only; omega⟩
  case stop => exact ⟨Nat.le_succ _, by simp only; omega⟩
  case within =>
    rintro s ⟨lo, hi⟩ hn t ht
    simp only at lo hi hn
    obtain rfl : s = a.size := by omega
    have edge : t ∈ (graphOf b guards').targets a.size := ht
    rw [first, List.mem_singleton] at edge
    exact ⟨by simp only; omega, by simp only; omega⟩
  case crosses =>
    exact fun text i j => pair_crosses apart first (Arena.guard_of_mark h.free)
  case drains => exact fun _ => Graph.drains_tied apart first Graph.drains_self

/-- The ids of two states that are added are their places. -/
theorem alloc_pair {a : Arena} {m : Option Nat} (room : a.size + 2 ≤ words) :
    a.alloc m = (a.size, (a.alloc m).2) ∧
      (a.alloc m).2.alloc none = (a.size + 1, ((a.alloc m).2.alloc none).2) := by
  have second : (a.alloc m).2.size < words := by rw [Arena.size_alloc]; omega
  refine ⟨Arena.alloc_of_lt (by omega), ?_⟩
  rw [Arena.alloc_of_lt second, Arena.size_alloc]

theorem guarded_builds (sound : d.Sound) (g : Guard) (room : d.arena.size + 2 ≤ words) :
    ∃ f d', d.guarded g = .ok (f, d') ∧ d'.arena.size = d.arena.size + 2 ∧
      Builds True d d' f [g] fun text => g.Spans text := by
  obtain ⟨arena, guards⟩ := d
  have few : guards.size ≤ arena.size := sound.guards
  have sound' : arena.Sound (guards.push g).size := sound.arena.mono (by simp)
  obtain ⟨b, hb, sound'', pairs⟩ := connect_pairs (m := some guards.size) sound' (by simp)
  have size := pairs.size
  have builds : Builds True ⟨arena, guards⟩ ⟨b, guards.push g⟩ _ [g] _ :=
    pairs.builds ⟨sound'', by simp only [Array.size_push]; omega⟩ (by simp)
  refine ⟨_, _, ?_, size, builds.congr fun text i j => ?_⟩
  · obtain ⟨first, second⟩ := alloc_pair (m := some guards.size) room
    have id : word guards.size = guards.size := word_of_lt (by simp only at room; omega)
    simp only [guarded, id]
    rw [first]
    simp only
    rw [second]
    simp only
    rw [hb]
    rfl
  · exact Graph.enters_of_guard (by simp [graphOf, pairs.mark])

theorem blank_builds (sound : d.Sound) (room : d.arena.size + 2 ≤ words) :
    ∃ f d', d.blank = .ok (f, d') ∧ d'.arena.size = d.arena.size + 2 ∧
      Builds True d d' f [] (fun _ i j => i = j) ∧ d'.arena.mark f.start = none := by
  obtain ⟨arena, guards⟩ := d
  obtain ⟨b, hb, sound', pairs⟩ := connect_pairs (m := none) sound.arena (by simp)
  have size := pairs.size
  have fit : guards.size ≤ b.size := Nat.le_trans sound.guards pairs.grows.size
  have builds : Builds True ⟨arena, guards⟩ ⟨b, guards⟩ _ [] _ :=
    pairs.builds ⟨sound', fit⟩ (by simp)
  refine ⟨_, _, ?_, size, builds.congr fun text i j => ?_, pairs.mark⟩
  · obtain ⟨first, second⟩ := alloc_pair (m := none) room
    simp only [blank]
    rw [first]
    simp only
    rw [second]
    simp only
    rw [hb]
    rfl
  · exact (Graph.enters_of_guard_none (Arena.guard_of_mark pairs.mark)).trans eq_comm

/-- What was added can be copied. -/
theorem Builds.template (h : Builds live d d' f gs R) :
    Arena.Template live d'.arena d'.guards d.arena.size f (d.Added d') R := by
  refine ⟨h.sound.arena, fun s hs t ht => ?_, h.grows.arena.size, fun _ => id, h.holds⟩
  have last : s ≠ f.stop := by
    rintro rfl
    rw [h.untied] at ht
    cases ht
  exact (h.holds.within s ⟨hs, Arena.lt_of_mem_targets ht⟩ last t ht).1

/-- What nothing leads to is not led to by what was added. -/
theorem Builds.leaves (h : Builds live d d' f gs R) {i : Nat} (old : i < d.arena.size)
    (alone : d.arena.Unentered i) : d'.arena.Unentered i :=
  alone.grow h.grows.arena.grows h.template.above old

theorem repeated_builds (h : Builds live d d₁ f gs R) (rep : Repeat)
    (added : d₁.arena.size ≤ d.arena.size + k)
    (room : d.arena.size + rep.footprint k ≤ words) :
    ∃ f' d', d₁.repeated f rep = .ok (f', d') ∧
      d'.arena.size ≤ d.arena.size + rep.footprint k ∧
      Builds live d d' f' gs (fun text i j => ∃ k, rep.Copies k ∧ Power (R text) k i j) ∧
      d'.arena.mark f'.start = none := by
  obtain ⟨arena, guards⟩ := d₁
  have le : d.arena.size ≤ arena.size := h.grows.arena.size
  have few : Few (d.Added ⟨arena, guards⟩) k :=
    few_range fun s hs => ⟨hs.1, Nat.lt_of_lt_of_le hs.2 added⟩
  rw [Repeat.footprint, ← Arena.template_add_clones] at room ⊢
  simp only at added
  obtain ⟨f', b, hr, more, made⟩ := Arena.repeated_crosses (a := arena) h.template few h.untied rep
    (by omega)
  have start := made.start
  have stop := made.stop
  have fit : guards.size ≤ b.size := Nat.le_trans h.sound.guards made.changes.size
  refine ⟨f', ⟨b, guards⟩, ?_, by simp only; omega, ⟨⟨?_, h.grows.guards⟩, ⟨made.sound, fit⟩,
    made.apart, made.unentered, made.untied, ⟨by omega, start.2⟩, ⟨by omega, stop.2⟩, ?_,
    made.crosses, made.drains⟩, made.free⟩
  · rw [repeated, hr]
    rfl
  · apply h.grows.arena.trans made.changes
    intro s hs same
    have := h.holds.stop.1
    omega
  · intro s hs _ t ht
    exact ⟨made.above s hs.1 t ht, made.sound.edges s t ht⟩

/-- A fragment is put behind another. -/
theorem andThen_builds (h : Builds live d d₁ f gs Q) (h' : Builds live' d₁ d₂ inner gs' R) :
    ∃ d', d₂.connect f.stop inner.start = .ok d' ∧ d'.arena.size = d₂.arena.size ∧
      Builds (live ∧ live') d d' ⟨f.start, inner.stop⟩ (gs ++ gs')
        (fun text i j => ∃ p, Q text i p ∧ R text p j) ∧
      d'.arena.mark f.start = d₁.arena.mark f.start := by
  obtain ⟨arena, guards⟩ := d₂
  have size := h.grows.arena.size
  have size' : d₁.arena.size ≤ arena.size := h'.grows.arena.size
  obtain ⟨_, firstLt⟩ := h.holds.start
  obtain ⟨stopNew, stopLt⟩ := h.holds.stop
  obtain ⟨startNew, startLt⟩ := h'.holds.start
  obtain ⟨lastNew, lastLt⟩ := h'.holds.stop
  have room : f.stop < arena.size := by omega
  have edge := Arena.changes_withEdge (t := inner.start) room
  have all : Extends (· = f.stop) gs' d₁ ⟨arena.withEdge f.stop inner.start, guards⟩ :=
    ⟨(h'.grows.arena.mono (fun _ => False.elim)).trans edge fun _ _ => id, h'.grows.guards⟩
  have tied : (arena.withEdge f.stop inner.start).targets f.stop = [inner.start] := by
    rw [Arena.targets_withEdge room, if_pos rfl, h'.grows.arena.targets _ stopLt id, h.untied]
    rfl
  have kept := h.holds.imp (And.left : live ∧ live' → live)
  have chain := kept.frame (all.alike h.sound (fun s hs => hs.2) fun _ _ => id)
  have step : Extends (· = f.stop) [] ⟨arena, guards⟩ ⟨arena.withEdge f.stop inner.start, guards⟩ :=
    ⟨edge, by simp⟩
  have kept' := h'.holds.imp (And.right : live ∧ live' → live')
  have next := kept'.frame (step.alike h'.sound (fun s hs => hs.2) fun s hs same =>
    absurd hs.1 (by omega))
  refine ⟨⟨arena.withEdge f.stop inner.start, guards⟩, ?_, Arena.size_withEdge, ?_, ?_⟩
  · rw [connect, Arena.connect_of_lt room]
    rfl
  · constructor
    case grows => exact h.grows.trans all fun s hs same => by omega
    case sound =>
      exact ⟨h'.sound.arena.withEdge room startLt, Arena.size_withEdge.symm ▸ h'.sound.guards⟩
    case apart =>
      change f.start ≠ inner.stop
      omega
    case unentered =>
      have alone : arena.Unentered f.start := h'.leaves firstLt h.unentered
      exact alone.withEdge room (by omega)
    case untied =>
      change Arena.targets _ inner.stop = []
      rw [Arena.targets_withEdge room, if_neg (by omega), h'.untied]
    case holds =>
      apply (chain.andThen next (fun s hs hs' => _) tied).region
      · intro s
        simp only [Added, Arena.size_withEdge]
        omega
      · intro s hs hs'
        exact absurd hs.2 (by have := hs'.1; omega)
  · rw [Arena.mark_withEdge, h'.grows.arena.mark _ h.holds.start.2]

/-- Fragments were put between the entry and the exit of `outer`, entered at `more`. -/
structure Offers (live : Prop) (d d' : Draft) (outer : Fragment) (gs : List Guard)
    (more : List Nat) (R : Array Char → Nat → Nat → Prop) : Prop where
  grows : Extends (· = outer.start) gs d d'
  sound : d'.Sound
  new : ∀ t ∈ more, d.arena.size ≤ t
  within : ∀ s, d.arena.size ≤ s → ∀ t ∈ d'.arena.targets s, d.arena.size ≤ t ∨ t = outer.stop
  entries : ∀ t, t ∈ d'.arena.targets outer.start ↔ t ∈ d.arena.targets outer.start ∨ t ∈ more
  crosses : ∀ text i j, (∃ t ∈ more, d'.graph.Crosses text ⟨t, outer.stop⟩ i j) ↔ R text i j
  drains : live → ∀ t ∈ more, d'.graph.Drains ⟨t, outer.stop⟩
  unentered : ∀ i, i < d.arena.size → i ≠ outer.stop → d.arena.Unentered i → d'.arena.Unentered i

theorem Offers.nil (sound : d.Sound) : Offers True d d outer [] [] fun _ _ _ => False where
  grows := ⟨.refl _, by simp⟩
  sound := sound
  new := by simp
  within s hs t ht := by
    rw [Arena.targets_of_ge hs] at ht
    cases ht
  entries := by simp
  crosses := by simp
  drains := by simp
  unentered _ _ _ alone := alone

/-- The entry and the exit of a fragment that others are put between. -/
structure Frame (d : Draft) (outer : Fragment) : Prop where
  start : outer.start < d.arena.size
  stop : outer.stop < d.arena.size
  apart : outer.start ≠ outer.stop
  free : d.arena.mark outer.stop = none

theorem Frame.extends {X : Nat → Prop} (h : Frame d outer) (grows : Extends X gs d d') :
    Frame d' outer where
  start := Nat.lt_of_lt_of_le h.start grows.arena.size
  stop := Nat.lt_of_lt_of_le h.stop grows.arena.size
  apart := h.apart
  free := (grows.arena.mark _ h.stop).trans h.free

/-- The entry of `outer` leads to the start of `inner`, and the stop of `inner` to its exit. -/
structure Ties (d d' : Draft) (outer inner : Fragment) : Prop where
  size : d'.arena.size = d.arena.size
  grows : Extends (fun s => s = outer.start ∨ s = inner.stop) [] d d'
  sound : d'.Sound
  first : d'.arena.targets outer.start = addNew (d.arena.targets outer.start) inner.start
  last : d'.arena.targets inner.stop = addNew (d.arena.targets inner.stop) outer.stop
  other : ∀ s, s ≠ outer.start → s ≠ inner.stop → d'.arena.targets s = d.arena.targets s
  unentered : ∀ i, i ≠ inner.start → i ≠ outer.stop → d.arena.Unentered i → d'.arena.Unentered i

theorem tie_ties (sound : d.Sound) (apart : outer.start ≠ inner.stop)
    (outerStart : outer.start < d.arena.size) (outerStop : outer.stop < d.arena.size)
    (innerStart : inner.start < d.arena.size) (innerStop : inner.stop < d.arena.size) :
    ∃ d', d.tie outer inner = .ok d' ∧ Ties d d' outer inner := by
  obtain ⟨arena, guards⟩ := d
  have room : inner.stop < (arena.withEdge outer.start inner.start).size := by
    rw [Arena.size_withEdge]; exact innerStop
  have ofFirst := fun i => Arena.targets_withEdge (i := i) (t := inner.start) outerStart
  have ofSecond := fun i => Arena.targets_withEdge (i := i) (t := outer.stop) room
  refine ⟨⟨(arena.withEdge outer.start inner.start).withEdge inner.stop outer.stop, guards⟩, ?_, ?_⟩
  · rw [tie, connect, Arena.connect_of_lt outerStart]
    change connect ⟨arena.withEdge outer.start inner.start, guards⟩ _ _ = _
    rw [connect, Arena.connect_of_lt room]
    rfl
  · constructor
    case size => rw [Arena.size_withEdge, Arena.size_withEdge]
    case grows =>
      have first := Arena.changes_withEdge (t := inner.start) outerStart
      have second := Arena.changes_withEdge (t := outer.stop) room
      exact ⟨(first.mono fun _ => .inl).trans second fun _ _ => .inr, by simp⟩
    case sound =>
      refine ⟨(sound.arena.withEdge outerStart innerStart).withEdge room ?_, ?_⟩
      · rw [Arena.size_withEdge]
        exact outerStop
      · rw [Arena.size_withEdge, Arena.size_withEdge]
        exact sound.guards
    case first => rw [ofSecond, if_neg apart, ofFirst, if_pos rfl]
    case last => rw [ofSecond, if_pos rfl, ofFirst, if_neg (Ne.symm apart)]
    case other =>
      intro s hs hs'
      rw [ofSecond, if_neg hs', ofFirst, if_neg hs]
    case unentered =>
      intro i hi hi' alone
      exact (alone.withEdge outerStart hi).withEdge room hi'

/-- A fragment is put between an entry and an exit. -/
theorem tie_offers (h : Frame d outer) (hi : Builds live d d₁ inner gs R) :
    ∃ d₂, d₁.tie outer inner = .ok d₂ ∧ d₂.arena.size = d₁.arena.size ∧
      Offers live d d₂ outer gs [inner.start] R := by
  have size := hi.grows.arena.size
  obtain ⟨startNew, startLt⟩ := hi.holds.start
  obtain ⟨stopNew, stopLt⟩ := hi.holds.stop
  have outerStart := h.start
  have outerStop := h.stop
  have apart : outer.start ≠ inner.stop := by omega
  obtain ⟨d₂, ht, ties⟩ := tie_ties hi.sound apart (by omega) (by omega) startLt stopLt
  have tied : d₂.graph.targets inner.stop = [outer.stop] := by
    change d₂.arena.targets inner.stop = _
    rw [ties.last, hi.untied]
    rfl
  have holds := hi.holds.frame (ties.grows.alike hi.sound (fun s hs => hs.2) fun s hs same =>
    same.resolve_left fun same => absurd hs.1 (by omega))
  have outside : ¬ Added d d₁ outer.stop := fun hs => absurd hs.1 (by omega)
  have left : inner.stop ≠ outer.stop := by omega
  refine ⟨d₂, ht, ties.size, ?_⟩
  constructor
  case grows =>
    have all : Extends (· = outer.start) (gs ++ []) d d₂ := by
      apply (hi.grows.mono fun _ => False.elim).trans ties.grows
      rintro s hs (same | same)
      · exact same
      · omega
    rwa [List.append_nil] at all
  case sound => exact ties.sound
  case new => simpa using startNew
  case within =>
    intro s hs t edge
    by_cases last : s = inner.stop
    · have edge : t ∈ d₂.graph.targets inner.stop := last ▸ edge
      rw [tied, List.mem_singleton] at edge
      exact .inr edge
    · rw [ties.other s (by omega) last] at edge
      exact .inl (hi.holds.within s ⟨hs, Arena.lt_of_mem_targets edge⟩ last t edge).1
  case entries =>
    intro t
    rw [ties.first, mem_addNew, List.mem_singleton, hi.grows.arena.targets _ h.start id]
  case crosses =>
    intro text i j
    have free : d₂.graph.guard outer.stop = none :=
      Arena.guard_of_mark (((h.extends hi.grows).extends ties.grows).free)
    simp only [List.mem_singleton, exists_eq_left, Graph.crosses_via holds outside,
      Graph.runTo_iff left, tied, Graph.crosses_self free, exists_eq_right']
  case drains =>
    intro living
    have last := Graph.drains_tied left tied Graph.drains_self
    simp only [List.mem_singleton, forall_eq]
    exact (holds.drains living).via last holds.within holds.start outside
  case unentered =>
    intro i lt other alone
    apply ties.unentered i (by omega) other
    exact hi.leaves lt alone

/-- Further fragments do not change what those before them cross. -/
theorem Offers.trans (hf : Frame d outer) (h : Offers live d d₁ outer gs more Q)
    (h' : Offers live' d₁ d₂ outer gs' more' R) :
    Offers (live ∧ live') d d₂ outer (gs ++ gs') (more ++ more')
      fun text i j => Q text i j ∨ R text i j := by
  have size := h.grows.arena.size
  have outerStart := hf.start
  have outerStop := hf.stop
  have same : ∀ s, d.arena.size ≤ s → s < d₁.arena.size →
      d₂.arena.targets s = d₁.arena.targets s := fun s hs lt =>
    h'.grows.arena.targets s lt (by omega)
  let S := fun s => s < d₁.arena.size ∧ (d.arena.size ≤ s ∨ s = outer.stop)
  have within : d₁.graph.Within S outer.stop := by
    rintro s ⟨lt, old | last⟩ hn t ht
    · exact ⟨h.sound.arena.edges s t ht, h.within s old t ht⟩
    · exact absurd last hn
  have alike : Graph.Alike d₁.graph d₂.graph S outer.stop :=
    h'.grows.alike h.sound (fun s hs => hs.1) fun s hs first => by
      rcases hs.2 with new | last
      · omega
      · exact last
  have inside : ∀ t ∈ more, S t := fun t ht =>
    ⟨h.sound.arena.edges outer.start t ((h.entries t).mpr (.inr ht)), .inl (h.new t ht)⟩
  refine ⟨h.grows.trans h'.grows fun _ _ => id, h'.sound, fun t ht => ?_, fun s hs t ht => ?_,
    fun t => ?_, fun text i j => ?_, fun living t ht => ?_, fun i lt other alone => ?_⟩
  · rcases List.mem_append.mp ht with ht | ht
    · exact h.new t ht
    · exact Nat.le_trans size (h'.new t ht)
  · by_cases lt : s < d₁.arena.size
    · rw [same s hs lt] at ht
      exact h.within s hs t ht
    · exact (h'.within s (by omega) t ht).imp_left fun lt => by omega
  · rw [h'.entries, h.entries, List.mem_append, or_assoc]
  · simp only [List.mem_append, or_and_right, exists_or, h'.crosses, ← h.crosses]
    refine or_congr_left (exists_congr fun t => and_congr_right fun ht => ?_)
    exact alike.crosses within (inside t ht)
  · rcases List.mem_append.mp ht with ht | ht
    · exact alike.drains within (inside t ht) (h.drains living.1 t ht)
    · exact h'.drains living.2 t ht
  · exact h'.unentered i (Nat.lt_of_lt_of_le lt size) other (h.unentered i lt other alone)

section

variable (room : d.arena.size + 2 ≤ words)

include room

theorem fork_eq : d.fork = (⟨d.arena.size, d.arena.size + 1⟩,
    ⟨((d.arena.alloc none).2.alloc none).2, d.guards⟩) := by
  obtain ⟨first, second⟩ := alloc_pair (m := none) room
  rw [fork]
  simp only
  rw [first]
  simp only
  rw [second]

theorem fork_start : d.fork.1.start = d.arena.size := by
  rw [fork_eq room]

theorem fork_stop : d.fork.1.stop = d.arena.size + 1 := by
  rw [fork_eq room]

theorem fork_size : d.fork.2.arena.size = d.arena.size + 2 := by
  rw [fork_eq room]
  simp only [Arena.size_alloc]

theorem fork_targets (s : Nat) :
    d.fork.2.arena.targets s = d.arena.targets s := by
  rw [fork_eq room]
  simp only [Arena.targets_alloc]

theorem fork_free : d.fork.2.arena.mark d.fork.1.start = none ∧
    d.fork.2.arena.mark d.fork.1.stop = none := by
  rw [fork_eq room]
  constructor
  · rw [Arena.mark_alloc, Arena.size_alloc, if_neg (by simp), Arena.mark_alloc, if_pos rfl]
  · rw [Arena.mark_alloc, Arena.size_alloc, if_pos rfl]

theorem fork_extends : Extends (fun _ => False) [] d d.fork.2 := by
  rw [fork_eq room]
  exact ⟨(Arena.grows_alloc.trans Arena.grows_alloc).changes, by simp⟩

theorem fork_sound (sound : d.Sound) : d.fork.2.Sound := by
  rw [fork_eq room]
  refine ⟨(sound.arena.alloc none (by simp)).alloc none (by simp), ?_⟩
  simp only [Arena.size_alloc]
  exact Nat.le_trans sound.guards (Nat.le_add_right _ 2)

theorem fork_unentered (sound : d.Sound) : d.fork.2.arena.Unentered d.fork.1.start := by
  rw [fork_eq room]
  exact (sound.arena.unentered (Nat.le_refl _)).alloc.alloc

theorem fork_frame : Frame d.fork.2 d.fork.1 := by
  have size := fork_size room
  have start := fork_start room
  have stop := fork_stop room
  exact ⟨by omega, by omega, by omega, (fork_free room).2⟩

/-- An entry and an exit with all their branches between them. -/
theorem fork_builds (sound : d.Sound)
    (h : Offers live d.fork.2 d' d.fork.1 gs more R) :
    Builds (more ≠ [] ∧ live) d d' d.fork.1 gs R ∧ d'.arena.mark d.fork.1.start = none := by
  have size := fork_size room
  have start := fork_start room
  have stop := fork_stop room
  obtain ⟨startLt, stopLt, apart, _⟩ := fork_frame room
  have free : d'.arena.mark d.fork.1.start = none :=
    (h.grows.arena.mark _ startLt).trans (fork_free room).1
  have first : ∀ t, t ∈ d'.graph.targets d.fork.1.start ↔ t ∈ more := by
    intro t
    change t ∈ d'.arena.targets _ ↔ _
    rw [h.entries, fork_targets room, Arena.targets_of_ge (Nat.le_of_eq start.symm)]
    simp
  refine ⟨?_, free⟩
  constructor
  case grows =>
    apply (fork_extends room).trans h.grows
    intro s hs same
    omega
  case sound => exact h.sound
  case apart => exact apart
  case unentered => exact h.unentered _ startLt apart (fork_unentered room sound)
  case untied =>
    rw [h.grows.arena.targets _ stopLt (Ne.symm apart), fork_targets room]
    exact Arena.targets_of_ge (by omega)
  case holds =>
    have grown := h.grows.arena.size
    refine ⟨⟨by omega, by omega⟩, ⟨by omega, by omega⟩, ?_, fun text i j => ?_, fun living => ?_⟩
    · rintro s ⟨lo, hi⟩ hn t ht
      refine ⟨?_, h.sound.arena.edges s t ht⟩
      by_cases same : s = d.fork.1.start
      · have := h.new t ((first t).mp (same ▸ ht))
        omega
      · rcases h.within s (by omega) t ht with new | rfl <;> omega
    · have free' : d'.graph.guard d.fork.1.start = none := Arena.guard_of_mark free
      have crossed : d'.graph.Crosses text ⟨d.fork.1.start, d.fork.1.stop⟩ i j ↔ R text i j := by
        simp only [Graph.crosses_free free', Graph.runTo_iff apart, first, h.crosses]
      exact crossed
    · obtain ⟨t, ht⟩ := List.exists_mem_of_ne_nil _ living.1
      apply Graph.drains_step apart ⟨t, (first t).mpr ht⟩
      exact fun t edge => h.drains living.2 t ((first t).mp edge)

end

end Draft

mutual

/-- Every group has a branch. -/
def Term.Lively : Term → Prop
  | .guard _ _ _ => True
  | .group bs _ _ _ => bs ≠ [] ∧ branchesLively bs

def branchLively : List Term → Prop
  | [] => True
  | t :: ts => t.Lively ∧ branchLively ts

def branchesLively : List (List Term) → Prop
  | [] => True
  | b :: bs => branchLively b ∧ branchesLively bs

end

namespace Draft

/-- A repetition takes no fewer states than what it repeats. -/
theorem le_footprint (rep : Repeat) (atom : Nat) : atom ≤ rep.footprint atom := by
  have least : 1 ≤ Nat.max rep.written 1 := Nat.le_max_right _ _
  have := Nat.mul_le_mul_left atom least
  rw [Repeat.footprint]
  omega

mutual

theorem term_builds (t : Term) {d : Draft} (sound : d.Sound)
    (room : d.arena.size + t.footprint ≤ words) :
    ∃ f d', term t d = .ok (f, d') ∧ d'.arena.size ≤ d.arena.size + t.footprint ∧
      Builds t.Lively d d' f t.guards (fun text => t.Spans Repeat.Copies text) ∧
      d'.arena.mark f.start = none := by
  match t with
  | .guard g rep _ =>
    rw [Term.footprint] at room ⊢
    have atom := le_footprint rep 2
    obtain ⟨f, d₁, hg, size, builds⟩ := guarded_builds sound g (by omega)
    obtain ⟨f', d', hr, more, builds', free⟩ :=
      repeated_builds builds rep (Nat.le_of_eq size) room
    refine ⟨f', d', by rw [term, hg, ok_bind]; exact hr, more, ?_, free⟩
    simpa only [Term.Lively, Term.guards, Term.Spans] using builds'
  | .group bs _ rep _ =>
    rw [Term.footprint] at room ⊢
    have atom := le_footprint rep (branchesFootprint bs)
    obtain ⟨f, d₁, hg, size, builds, _⟩ := branches_builds bs sound (by omega)
    obtain ⟨f', d', hr, more, builds', free⟩ := repeated_builds builds rep size room
    refine ⟨f', d', by rw [term, hg, ok_bind]; exact hr, more, ?_, free⟩
    simpa only [Term.Lively, Term.guards, Term.Spans] using builds'

theorem branch_builds (ts : List Term) {d : Draft} (sound : d.Sound)
    (room : d.arena.size + branchFootprint ts ≤ words) :
    ∃ f d', branch ts d = .ok (f, d') ∧ d'.arena.size ≤ d.arena.size + branchFootprint ts ∧
      Builds (branchLively ts) d d' f (branchGuards ts)
        (fun text => spansBranch Repeat.Copies text ts) ∧
      d'.arena.mark f.start = none := by
  match ts with
  | [] =>
    obtain ⟨f, d', hb, size, builds, free⟩ := blank_builds sound room
    refine ⟨f, d', by rw [branch, hb], Nat.le_of_eq size, ?_, free⟩
    simpa only [branchLively, branchGuards, spansBranch] using builds
  | t :: ts =>
    rw [branchFootprint] at room ⊢
    obtain ⟨f, d₁, ht, size, builds, free⟩ := term_builds t sound (by omega)
    obtain ⟨f', d', hf, more, builds', free'⟩ := following_builds ts builds free (by omega)
    refine ⟨f', d', by rw [branch, ht, ok_bind]; exact hf, by omega, ?_, free'⟩
    simpa only [branchLively, branchGuards, spansBranch] using builds'

theorem following_builds (ts : List Term) {live : Prop} {d d₁ : Draft} {f : Fragment}
    {gs : List Guard} {Q : Array Char → Nat → Nat → Prop} (h : Builds live d d₁ f gs Q)
    (free : d₁.arena.mark f.start = none)
    (room : d₁.arena.size + followingFootprint ts ≤ words) :
    ∃ f' d', following ts f d₁ = .ok (f', d') ∧
      d'.arena.size ≤ d₁.arena.size + followingFootprint ts ∧
      Builds (live ∧ branchLively ts) d d' f' (gs ++ branchGuards ts)
        (fun text i j => ∃ p, Q text i p ∧ spansBranch Repeat.Copies text ts p j) ∧
      d'.arena.mark f'.start = none := by
  match ts with
  | [] =>
    refine ⟨f, d₁, rfl, Nat.le_add_right _ _, ?_, free⟩
    simpa [branchLively, branchGuards, spansBranch] using h
  | t :: ts =>
    rw [followingFootprint] at room ⊢
    obtain ⟨next, d₂, ht, size, builds, _⟩ := term_builds t h.sound (by omega)
    obtain ⟨d₃, hc, same, builds', free'⟩ := andThen_builds h builds
    obtain ⟨f', d', hf, more, builds'', free''⟩ :=
      following_builds ts builds' (free'.trans free) (by omega)
    refine ⟨f', d', ?_, by omega, ?_, free''⟩
    · rw [following, ht, ok_bind]
      simp only [hc, ok_bind, hf]
    · rw [List.append_assoc, and_assoc] at builds''
      apply builds''.congr
      intro text i j
      simp only [spansBranch]
      constructor
      · rintro ⟨q, ⟨p, hp, hq⟩, hj⟩; exact ⟨p, hp, q, hq, hj⟩
      · rintro ⟨p, hp, q, hq, hj⟩; exact ⟨q, ⟨p, hp, hq⟩, hj⟩

theorem branches_builds (bs : List (List Term)) {d : Draft} (sound : d.Sound)
    (room : d.arena.size + branchesFootprint bs ≤ words) :
    ∃ f d', branches bs d = .ok (f, d') ∧ d'.arena.size ≤ d.arena.size + branchesFootprint bs ∧
      Builds (bs ≠ [] ∧ branchesLively bs) d d' f (branchesGuards bs)
        (fun text => spansBranches Repeat.Copies text bs) ∧
      d'.arena.mark f.start = none := by
  match bs with
  | [] =>
    obtain ⟨builds, free⟩ := fork_builds room sound (Offers.nil (fork_sound room sound))
    refine ⟨d.fork.1, d.fork.2, rfl, Nat.le_of_eq (fork_size room), ?_, free⟩
    have builds' := builds.imp fun living : [] ≠ ([] : List (List Term)) ∧ branchesLively [] =>
      absurd rfl living.1
    simpa only [branchesGuards, spansBranches] using builds'
  | [b] =>
    rw [branchesFootprint, List.isEmpty_nil, if_pos rfl] at room ⊢
    obtain ⟨f, d', hb, size, builds, free⟩ := branch_builds b sound room
    refine ⟨f, d', by rw [branches]; simpa using hb, size, ?_, free⟩
    simpa [branchesLively, branchesGuards, spansBranches] using builds
  | b :: b' :: bs =>
    rw [branchesFootprint, if_neg (by simp)] at room ⊢
    have entry : d.arena.size + 2 ≤ words := by omega
    have forked := fork_size entry
    obtain ⟨inner, d₁, hb, size, builds, _⟩ := branch_builds b (fork_sound entry sound) (by omega)
    obtain ⟨d₂, ht, same, first⟩ := tie_offers (fork_frame entry) builds
    obtain ⟨d', more, ha, size', rest⟩ := alternatives_offers (b' :: bs)
      ((fork_frame entry).extends first.grows) first.sound (by omega)
    obtain ⟨builds', free⟩ := fork_builds entry sound (first.trans (fork_frame entry) rest)
    refine ⟨d.fork.1, d', ?_, by omega, ?_, free⟩
    · rw [branches, if_neg (by simp)]
      simp only [hb, ok_bind, ht, ha]
      rfl
    · have builds := builds'.imp fun living : b :: b' :: bs ≠ [] ∧ branchesLively (b :: b' :: bs) =>
        ⟨List.cons_ne_nil inner.start more, living.2⟩
      simpa only [branchesLively, branchesGuards, spansBranches] using builds

theorem alternatives_offers (bs : List (List Term)) {d : Draft} {outer : Fragment}
    (hf : Frame d outer) (sound : d.Sound)
    (room : d.arena.size + alternativesFootprint bs ≤ words) :
    ∃ d' more, alternatives bs outer d = .ok d' ∧
      d'.arena.size ≤ d.arena.size + alternativesFootprint bs ∧
      Offers (branchesLively bs) d d' outer (branchesGuards bs) more
        (fun text => spansBranches Repeat.Copies text bs) := by
  match bs with
  | [] =>
    refine ⟨d, [], rfl, Nat.le_add_right _ _, ?_⟩
    simpa only [branchesLively, branchesGuards, spansBranches] using Offers.nil sound
  | b :: bs =>
    rw [alternativesFootprint] at room ⊢
    obtain ⟨inner, d₁, hb, size, builds, _⟩ := branch_builds b sound (by omega)
    obtain ⟨d₂, ht, same, first⟩ := tie_offers hf builds
    obtain ⟨d', more, ha, size', rest⟩ :=
      alternatives_offers bs (hf.extends first.grows) first.sound (by omega)
    refine ⟨d', [inner.start] ++ more, ?_, by omega, ?_⟩
    · rw [alternatives, hb, ok_bind]
      simp only [ht, ok_bind, ha]
    · simpa only [branchesLively, branchesGuards, spansBranches] using first.trans hf rest

end

end Draft

end WholeMatch
