import Mathlib.Data.List.Forall2
import Mathlib.Data.List.Nodup
import Mathlib.Logic.Function.Basic
import WholeMatch.Proofs.Fragments

namespace WholeMatch

namespace Arena

/-- The states of `a` that have a copy in `b` lie in `T`, and `done` lists the edges of theirs
that were copied. -/
structure Images (a : Arena) (T : Nat → Prop) (guards : Nat) (done : Nat → List Nat) (b : Arena)
    (copies : List (Nat × Nat)) : Prop where
  grows : a.Grows b
  sound : b.Sound guards
  above : b.Above a.size
  keys : (copies.map Prod.fst).Nodup
  origin : ∀ o c, (o, c) ∈ copies → T o
  image : ∀ o c, (o, c) ∈ copies → a.size ≤ c ∧ c < b.size ∧ b.mark c = a.mark o
  apart : ∀ o o' c, (o, c) ∈ copies → (o', c) ∈ copies → o = o'
  onto : ∀ c, a.size ≤ c → c < b.size → ∃ o, (o, c) ∈ copies
  row : ∀ o c, (o, c) ∈ copies → (done o).Forall₂ (fun t d => (t, d) ∈ copies) (b.targets c)
  fresh : ∀ o, o ∉ copies.map Prod.fst → done o = []

/-- A member of the one list is related to some member of the other. -/
theorem exists_right {α β : Type} {R : α → β → Prop} {l : List α} {m : List β} {x : α}
    (h : l.Forall₂ R m) (hx : x ∈ l) : ∃ y ∈ m, R x y := by
  induction h with
  | nil => cases hx
  | cons first _ ih =>
    rcases List.mem_cons.mp hx with rfl | hx
    · exact ⟨_, List.mem_cons_self .., first⟩
    · obtain ⟨y, hy, rel⟩ := ih hx
      exact ⟨y, List.mem_cons_of_mem _ hy, rel⟩

theorem exists_left {α β : Type} {R : α → β → Prop} {l : List α} {m : List β} {y : β}
    (h : l.Forall₂ R m) (hy : y ∈ m) : ∃ x ∈ l, R x y := exists_right h.flip hy

namespace Images

variable {a b : Arena} {T : Nat → Prop} {guards : Nat} {done : Nat → List Nat}
  {copies met : List (Nat × Nat)} {o c d t : Nat}

theorem empty (sound : a.Sound guards) : Images a T guards (fun _ => []) a [] where
  grows := .refl a
  sound := sound
  above := above_size (Nat.le_refl _)
  keys := List.nodup_nil
  origin := by simp
  image := by simp
  apart := by simp
  onto c hc room := by omega
  row := by simp
  fresh _ _ := rfl

theorem forth (h : Images a T guards done b copies) (o c : Nat) (hc : (o, c) ∈ copies) :
    ∀ t ∈ done o, ∃ d ∈ b.targets c, (t, d) ∈ copies :=
  fun _ => exists_right (h.row o c hc)

theorem back (h : Images a T guards done b copies) (o c : Nat) (hc : (o, c) ∈ copies) :
    ∀ d ∈ b.targets c, ∃ t ∈ done o, (t, d) ∈ copies :=
  fun _ => exists_left (h.row o c hc)

/-- A state has one copy only. -/
theorem copy_eq (h : Images a T guards done b copies) (hc : (o, c) ∈ copies)
    (hd : (o, d) ∈ copies) : c = d :=
  (Prod.ext_iff.mp (List.inj_on_of_nodup_map h.keys hc hd rfl)).2

theorem key {l : List (Nat × Nat)} (h : (o, c) ∈ l) : o ∈ l.map Prod.fst :=
  List.mem_map.mpr ⟨(o, c), h, rfl⟩

theorem lookup_eq_none {l : List (Nat × Nat)} (h : l.lookup o = none) : o ∉ l.map Prod.fst := by
  rw [List.lookup_eq_none_iff] at h
  intro hk
  obtain ⟨p, hp, rfl⟩ := List.mem_map.mp hk
  simpa using h p hp

theorem mem_of_lookup {l : List (Nat × Nat)} (h : l.lookup o = some c) : (o, c) ∈ l := by
  obtain ⟨l₁, l₂, rfl, _⟩ := List.lookup_eq_some_iff.mp h
  simp

/-- The edge to a state that has a copy is copied. It is new to the copy, and goes last. -/
theorem connect (h : Images a T guards done b copies) (hc : (o, c) ∈ copies)
    (hd : (t, d) ∈ copies) (left : t ∉ done o) :
    Images a T guards (Function.update done o (done o ++ [t])) (b.withEdge c d) copies := by
  obtain ⟨new, room, _⟩ := h.image o c hc
  obtain ⟨new', room', _⟩ := h.image t d hd
  have other : ∀ {o' c'}, (o', c') ∈ copies → o' ≠ o → c' ≠ c := by
    rintro o' c' hc' hn rfl
    exact hn (h.apart o' o c' hc' hc)
  have missing : d ∉ b.targets c := by
    intro there
    obtain ⟨u, hu, hm⟩ := h.back o c hc d there
    exact left (h.apart u t d hm hd ▸ hu)
  refine ⟨h.grows.withEdge new room, h.sound.withEdge room room',
    h.above.withEdge room fun _ => new', h.keys, h.origin, ?_, h.apart, ?_, ?_, ?_⟩
  · intro o' c' hc'
    rw [size_withEdge, mark_withEdge]
    exact h.image o' c' hc'
  · intro c' new' room'
    exact h.onto c' new' (size_withEdge ▸ room')
  · intro o' c' hc'
    rw [targets_withEdge room]
    by_cases same : o' = o
    · subst same
      rw [if_pos (h.copy_eq hc' hc), Function.update_self, addNew_of_notMem missing]
      exact List.rel_append (h.row o' c hc) (.cons hd .nil)
    · rw [if_neg (other hc' same), Function.update_of_ne same]
      exact h.row o' c' hc'
  · intro o' absent
    have other : o' ≠ o := fun same => absent (same ▸ key hc)
    rw [Function.update_of_ne other]
    exact h.fresh o' absent

/-- A state that has no copy yet is given one, without edges. -/
theorem meet (h : Images a T guards done b copies) (inside : ∀ s, T s → s < a.size)
    (absent : t ∉ copies.map Prod.fst) (ht : T t) :
    Images a T guards done (b.alloc (a.mark t)).2 ((t, b.size) :: copies) := by
  have old : ∀ {o' c'}, (o', c') ∈ copies → c' ≠ b.size := fun hc' same => by
    have := (h.image _ _ hc').2.1
    omega
  refine ⟨h.grows.trans grows_alloc, h.sound.alloc _ fun g hg => ?_, h.above.alloc,
    List.nodup_cons.mpr ⟨absent, h.keys⟩, ?_, ?_, ?_, ?_, ?_, ?_⟩
  · rw [← h.grows.mark t (inside t ht)] at hg
    exact h.sound.marks t g hg
  · intro o' c' hc'
    rcases List.mem_cons.mp hc' with same | hc'
    · cases same; exact ht
    · exact h.origin o' c' hc'
  · intro o' c' hc'
    rw [size_alloc, mark_alloc]
    rcases List.mem_cons.mp hc' with same | hc'
    · cases same
      rw [if_pos rfl]
      exact ⟨h.grows.size, by omega, rfl⟩
    · obtain ⟨new, room, mark⟩ := h.image o' c' hc'
      rw [if_neg (old hc')]
      exact ⟨new, by omega, mark⟩
  · intro o₁ o₂ c' h₁ h₂
    rcases List.mem_cons.mp h₁ with same₁ | h₁ <;> rcases List.mem_cons.mp h₂ with same₂ | h₂
    · cases same₁; cases same₂; rfl
    · cases same₁; exact absurd rfl (old h₂)
    · cases same₂; exact absurd rfl (old h₁)
    · exact h.apart o₁ o₂ c' h₁ h₂
  · intro c' new room
    rw [size_alloc] at room
    rcases Nat.lt_succ_iff_lt_or_eq.mp room with room | rfl
    · exact (h.onto c' new room).imp fun _ => List.mem_cons_of_mem _
    · exact ⟨t, List.mem_cons_self ..⟩
  · intro o' c' hc'
    rw [targets_alloc]
    rcases List.mem_cons.mp hc' with same | hc'
    · cases same
      rw [h.fresh t absent, targets_of_ge (Nat.le_refl _)]
      exact .nil
    · exact (h.row o' c' hc').imp fun _ _ => List.mem_cons_of_mem _
  · intro o' absent'
    exact h.fresh o' fun hk => absent' (List.mem_cons_of_mem _ hk)

/-- There are no more copies than there are originals. -/
theorem length_le {k : Nat} (h : Images a T guards done b copies) (few : Few T k) :
    copies.length ≤ k := by
  have all := few _ h.keys fun s hs => by
    obtain ⟨⟨o, c⟩, hp, rfl⟩ := List.mem_map.mp hs
    exact h.origin o c hp
  rwa [List.length_map] at all

/-- Nothing but copies is added. -/
theorem size_le (h : Images a T guards done b copies) : b.size ≤ a.size + copies.length := by
  have copied : List.range' a.size (b.size - a.size) ⊆ copies.map Prod.snd := by
    intro c hc
    have new := List.mem_range'_1.mp hc
    obtain ⟨o, ho⟩ := h.onto c new.1 (by omega)
    exact List.mem_map.mpr ⟨(o, c), ho, rfl⟩
  have := (List.subperm_of_subset List.nodup_range' copied).length_le
  simp only [List.length_range', List.length_map] at this
  omega

/-- Where there is room for a copy of each, one more copy has an id of its own. -/
theorem lt_words {k : Nat} (h : Images a T guards done b copies) (few : Few T k)
    (room : a.size + k ≤ words) (absent : t ∉ copies.map Prod.fst) (ht : T t) :
    b.size < words := by
  have members : ∀ s ∈ t :: copies.map Prod.fst, T s := by
    refine List.forall_mem_cons.mpr ⟨ht, fun s hs => ?_⟩
    obtain ⟨⟨o, c⟩, hp, rfl⟩ := List.mem_map.mp hs
    exact h.origin o c hp
  have all := few _ (List.nodup_cons.mpr ⟨absent, h.keys⟩) members
  have added := h.size_le
  simp only [List.length_cons, List.length_map] at all
  omega

end Images

variable {a b : Arena} {T : Nat → Prop} {guards : Nat} {done : Nat → List Nat}
  {copies met queue : List (Nat × Nat)} {o c stop k : Nat}

/-- One edge is copied, and its target if need be. -/
theorem edge_images (met : List (Nat × Nat)) (h : Images a T guards done b copies)
    (inside : ∀ s, T s → s < a.size) (few : Few T k) (room : a.size + k ≤ words)
    (hc : (o, c) ∈ copies) {t : Nat} (ht : T t) (left : t ∉ done o) :
    ∃ b' new, Copying.edge ⟨b, copies, met⟩ c t = .ok ⟨b', new.reverse ++ copies, met ++ new⟩ ∧
      Images a T guards (Function.update done o (done o ++ [t])) b' (new.reverse ++ copies) := by
  have old := (h.image o c hc).2.1
  rw [Copying.edge]
  cases known : copies.lookup t with
  | some d =>
    refine ⟨b.withEdge c d, [], ?_, h.connect hc (Images.mem_of_lookup known) left⟩
    simp [connect_of_lt old, ok_bind, pure, Except.pure]
  | none =>
    have absent := Images.lookup_eq_none known
    have met' := h.meet inside absent ht
    have hc' := List.mem_cons_of_mem (t, b.size) hc
    refine ⟨_, [(t, b.size)], ?_, met'.connect hc' (List.mem_cons_self ..) left⟩
    have there : t < b.size := Nat.lt_of_lt_of_le (inside t ht) h.grows.size
    have old' : c < (b.alloc (a.mark t)).2.size := (met'.image o c hc').2.1
    rw [state_of_lt there, ok_bind, h.grows.mark t (inside t ht),
      alloc_of_lt (h.lt_words few room absent ht)]
    simp only [connect_of_lt old', ok_bind, pure, Except.pure]
    rfl

/-- All edges of a state are copied, and those of their targets that are met for the first time. -/
theorem edges_images (inside : ∀ s, T s → s < a.size) (few : Few T k) (room : a.size + k ≤ words)
    (ts : List Nat) :
    ∀ {b : Arena} {done : Nat → List Nat} {copies : List (Nat × Nat)} (met : List (Nat × Nat)),
    Images a T guards done b copies → (o, c) ∈ copies → (∀ t ∈ ts, T t) →
    (done o ++ ts).Nodup →
    ∃ b' new, Copying.edges c ts ⟨b, copies, met⟩ = .ok ⟨b', new.reverse ++ copies, met ++ new⟩ ∧
      Images a T guards (Function.update done o (done o ++ ts)) b' (new.reverse ++ copies) := by
  induction ts with
  | nil =>
    intro b done copies met h _ _ _
    exact ⟨b, [], by simp [Copying.edges], by simpa using h⟩
  | cons t ts ih =>
    intro b done copies met h hc hts once
    obtain ⟨ht, hts⟩ := List.forall_mem_cons.mp hts
    have left : t ∉ done o := fun there =>
      (List.nodup_append.mp once).2.2 t there t (List.mem_cons_self ..) rfl
    obtain ⟨b₁, new₁, he, h₁⟩ := edge_images met h inside few room hc ht left
    obtain ⟨b₂, new₂, hes, h₂⟩ := ih (met ++ new₁) h₁ (List.mem_append_right _ hc) hts
      (by simpa using once)
    refine ⟨b₂, new₁ ++ new₂, ?_, ?_⟩
    · rw [Copying.edges, he, ok_bind, hes]
      simp
    · simpa using h₂

/-- What is left to do: the copies in the queue have no edges yet, the others all of theirs, and
the exit none. -/
structure Pending (a : Arena) (stop : Nat) (done : Nat → List Nat)
    (copies queue : List (Nat × Nat)) : Prop where
  queued : ∀ p ∈ queue, p ∈ copies ∧ p.1 ≠ stop ∧ done p.1 = []
  distinct : (queue.map Prod.fst).Nodup
  known : stop ∈ copies.map Prod.fst
  untied : done stop = []
  complete : ∀ o c, (o, c) ∈ copies → o ≠ stop → done o = a.targets o ∨ (o, c) ∈ queue

/-- The first of the queue gets its edges, and what is met goes behind the others. -/
theorem Pending.next {stop : Nat} {queue new : List (Nat × Nat)}
    (h : Pending a stop done copies ((o, c) :: queue))
    (fresh : ∀ o, o ∉ copies.map Prod.fst → done o = [])
    (keys : ((new.reverse ++ copies).map Prod.fst).Nodup) :
    Pending a stop (Function.update done o (a.targets o)) (new.reverse ++ copies)
      (queue ++ new) := by
  obtain ⟨⟨hc, left, _⟩, queued⟩ := List.forall_mem_cons.mp h.queued
  obtain ⟨first, distinct⟩ := List.nodup_cons.mp h.distinct
  rw [List.map_append, List.nodup_append] at keys
  obtain ⟨newKeys, _, split⟩ := keys
  have absent : ∀ p ∈ new, p.1 ∉ copies.map Prod.fst := fun p hp hk =>
    split p.1 (List.mem_map_of_mem (List.mem_reverse.mpr hp)) p.1 hk rfl
  constructor
  case queued =>
    intro p hp
    rcases List.mem_append.mp hp with old | recent
    · obtain ⟨hp, hn, hd⟩ := queued p old
      have other : p.1 ≠ o := fun same => first (List.mem_map.mpr ⟨p, old, same⟩)
      exact ⟨List.mem_append_right _ hp, hn, by rw [Function.update_of_ne other, hd]⟩
    · have other : p.1 ≠ o := fun same => absent p recent (same ▸ Images.key hc)
      refine ⟨List.mem_append_left _ (List.mem_reverse.mpr recent),
        fun same => absent p recent (same ▸ h.known), ?_⟩
      rw [Function.update_of_ne other, fresh _ (absent p recent)]
  case distinct =>
    rw [List.map_append, List.nodup_append]
    refine ⟨distinct, by simpa using newKeys, ?_⟩
    intro o₁ h₁ o₂ h₂ same
    obtain ⟨p, hp, rfl⟩ := List.mem_map.mp h₁
    obtain ⟨p', hp', rfl⟩ := List.mem_map.mp h₂
    exact absent p' hp' (same ▸ List.mem_map_of_mem (queued p hp).1)
  case known =>
    rw [List.map_append]
    exact List.mem_append_right _ h.known
  case untied => rw [Function.update_of_ne (Ne.symm left), h.untied]
  case complete =>
    intro o' c' hc' hn
    rcases List.mem_append.mp hc' with recent | old
    · exact .inr (List.mem_append_right _ (List.mem_reverse.mp recent))
    · by_cases same : o' = o
      · subst same
        exact .inl (Function.update_self ..)
      · rw [Function.update_of_ne same]
        apply (h.complete o' c' old hn).imp_right
        intro hq
        apply List.mem_append_left
        exact (List.mem_cons.mp hq).resolve_left fun e => same (Prod.ext_iff.mp e).1

/-- When nothing is left to do every copy has its edges. -/
theorem Pending.finished {stop : Nat} (h : Pending a stop done copies []) (hc : (o, c) ∈ copies)
    (hn : o ≠ stop) : done o = a.targets o :=
  (h.complete o c hc hn).resolve_right (by simp)

/-- **A copy comes to an end**, with the edges of every state that was met copied, except those
that lead on from the exit. -/
theorem copyAll_images (inside : ∀ s, T s → s < a.size) (few : Few T k) (room : a.size + k ≤ words)
    (closed : ∀ s, T s → s ≠ stop → ∀ t ∈ a.targets s, T t) (fuel : Nat) :
    ∀ (queue : List (Nat × Nat)) {copies : List (Nat × Nat)} {b : Arena} {done : Nat → List Nat},
    Images a T guards done b copies → Pending a stop done copies queue →
    words + queue.length ≤ fuel + copies.length →
    ∃ b' copies' done', copyAll fuel queue b copies = .ok b' ∧
      Images a T guards done' b' copies' ∧ copies ⊆ copies' ∧ Pending a stop done' copies' [] := by
  induction fuel with
  | zero =>
    intro queue copies b done h pending left
    have := h.length_le few
    obtain rfl : queue = [] := List.length_eq_zero_iff.mp (by omega)
    exact ⟨b, copies, done, rfl, h, List.Subset.refl _, pending⟩
  | succ fuel ih =>
    intro queue copies b done h pending left
    match queue with
    | [] => exact ⟨b, copies, done, rfl, h, List.Subset.refl _, pending⟩
    | (o, c) :: queue =>
      obtain ⟨hc, onward, undone⟩ := pending.queued (o, c) (List.mem_cons_self ..)
      have ho := h.origin o c hc
      have once : (done o ++ a.targets o).Nodup := by
        rw [undone, List.nil_append, ← h.grows.targets o (inside o ho)]
        exact h.sound.nodup o
      obtain ⟨b₁, new, hes, h₁⟩ :=
        edges_images inside few room (a.targets o) [] h hc (closed o ho onward) once
      rw [undone, List.nil_append] at h₁
      have left' : words + (queue ++ new).length ≤ fuel + (new.reverse ++ copies).length := by
        simp only [List.length_append, List.length_reverse, List.length_cons] at left ⊢
        omega
      obtain ⟨b', copies', done', hall, h', sub, pending'⟩ :=
        ih (queue ++ new) h₁ (pending.next h.fresh h₁.keys) left'
      refine ⟨b', copies', done', ?_, h',
        List.Subset.trans (List.subset_append_right _ _) sub, pending'⟩
      have old : o < b.size := Nat.lt_of_lt_of_le (inside o ho) h.grows.size
      rw [copyAll, edges_of_lt old, h.grows.targets o (inside o ho), ok_bind, hes, ok_bind]
      exact hall

/-- `f'` in `b` is the clone of `f`, made of the copies of its states: all their edges are copied,
except those that lead on from the exit. -/
structure Cloned (a : Arena) (T : Nat → Prop) (guards : Nat) (f : Fragment)
    (done : Nat → List Nat) (f' : Fragment) (b : Arena) (copies : List (Nat × Nat)) : Prop
    extends Images a T guards done b copies where
  first : (f.start, f'.start) ∈ copies
  last : (f.stop, f'.stop) ∈ copies
  untied : done f.stop = []
  complete : ∀ o c, (o, c) ∈ copies → o ≠ f.stop → done o = a.targets o

/-- **A fragment is cloned**, if all that is reachable in it without going on behind its exit is
there, and there is room for the copies. -/
theorem cloneFragment_cloned {f : Fragment} (sound : a.Sound guards)
    (inside : ∀ s, T s → s < a.size) (few : Few T k) (room : a.size + k ≤ words)
    (entry : T f.start) (exit : T f.stop)
    (closed : ∀ s, T s → s ≠ f.stop → ∀ t ∈ a.targets s, T t) :
    ∃ f' b copies done, a.cloneFragment f = .ok (f', b) ∧
      Cloned a T guards f done f' b copies := by
  have hstop := inside f.stop exit
  have hstart := inside f.start entry
  have h₀ := Images.empty (T := T) sound
  have h₁ := h₀.meet inside (by simp) exit
  have fits : a.size < words := h₀.lt_words few room (by simp) exit
  by_cases same : f.start = f.stop
  · refine ⟨⟨a.size, a.size⟩, (a.alloc (a.mark f.stop)).2, [(f.stop, a.size)], fun _ => [], ?_,
      { h₁ with first := by simp [same], last := by simp, untied := rfl, complete := by simp }⟩
    rw [cloneFragment, state_of_lt hstop, ok_bind, alloc_of_lt fits]
    simp only [if_pos same]
    rfl
  · have absent : f.start ∉ [(f.stop, a.size)].map Prod.fst := by simpa using same
    have h₂ := h₁.meet inside absent entry
    have pending : Pending a f.stop (fun _ => []) [(f.start, (a.alloc (a.mark f.stop)).2.size),
        (f.stop, a.size)] [(f.start, (a.alloc (a.mark f.stop)).2.size)] := by
      refine ⟨by simpa using same, by simp, by simp, rfl, fun o c hc hn => ?_⟩
      simp only [List.mem_cons, Prod.mk.injEq, List.not_mem_nil, or_false] at hc ⊢
      exact .inr (hc.resolve_right fun e => hn e.1)
    obtain ⟨b, copies, done, hall, h, sub, left⟩ := copyAll_images inside few room closed words
      [(f.start, (a.alloc (a.mark f.stop)).2.size)] h₂ pending
      (by simp only [List.length_cons, List.length_nil]; omega)
    refine ⟨⟨(a.alloc (a.mark f.stop)).2.size, a.size⟩, b, copies, done, ?_,
      { h with first := sub (by simp), last := sub (by simp), untied := left.untied,
               complete := fun o c => left.finished }⟩
    have old : f.start < (a.alloc (a.mark f.stop)).2.size := by rw [size_alloc]; omega
    rw [cloneFragment, state_of_lt hstop, ok_bind, alloc_of_lt fits]
    simp only [if_neg same]
    rw [state_of_lt old, h₁.grows.mark _ hstart, ok_bind,
      alloc_of_lt (h₁.lt_words few room absent entry)]
    simp only [hall, ok_bind]
    rfl

namespace Cloned

variable {f f' : Fragment}

theorem mirror {gs : Array Guard} (h : Cloned a T guards f done f' b copies) :
    Graph.Mirror (graphOf a gs) (graphOf b gs) (fun o c => (o, c) ∈ copies) f.stop f'.stop where
  guard o c hc := by simp only [graphOf, (h.image o c hc).2.2]
  last o c hc := by
    constructor
    · rintro rfl; exact h.copy_eq hc h.last
    · rintro rfl; exact h.apart o f.stop _ hc h.last
  forth o c hc hn t ht := h.forth o c hc t ((h.complete o c hc hn).symm ▸ ht)
  back o c hc hn d hd := by
    obtain ⟨t, ht, hm⟩ := h.back o c hc d hd
    rw [h.complete o c hc hn] at ht
    exact ⟨t, ht, hm⟩

/-- Nothing is tied to the exit. -/
theorem loose (h : Cloned a T guards f done f' b copies) : b.targets f'.stop = [] := by
  have row := h.row _ _ h.last
  rwa [h.untied, List.forall₂_nil_left_iff] at row

end Cloned

/-- **A clone crosses what its original does.** It lies in new states, no more than the original
has, and nothing is tied to it: what was behind the exit of the original is not copied. -/
theorem cloneFragment_holds {gs : Array Guard} {live : Prop} {f : Fragment}
    {R : Array Char → Nat → Nat → Prop} (sound : a.Sound gs.size)
    (inside : ∀ s, T s → s < a.size)
    (few : Few T k) (room : a.size + k ≤ words) (hf : (graphOf a gs).Holds live T f R) :
    ∃ f' b, a.cloneFragment f = .ok (f', b) ∧ a.Grows b ∧ b.size ≤ a.size + k ∧
      b.Sound gs.size ∧ b.Above a.size ∧ b.targets f'.stop = [] ∧
      ∃ N : Nat → Prop, (∀ s, N s → a.size ≤ s ∧ s < b.size) ∧
        (graphOf b gs).Holds live N f' R := by
  obtain ⟨f', b, copies, done, cloned, h⟩ :=
    cloneFragment_cloned sound inside few room hf.start hf.stop hf.within
  have added : b.size ≤ a.size + k :=
    Nat.le_trans h.size_le (Nat.add_le_add_left (h.length_le few) _)
  refine ⟨f', b, cloned, h.grows, added, h.sound, h.above, h.loose, _, ?_,
    hf.mirror h.mirror h.first h.last⟩
  rintro c ⟨o, hc⟩
  exact ⟨(h.image o c hc).1, (h.image o c hc).2.1⟩

end Arena

end WholeMatch
