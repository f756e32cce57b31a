import WholeMatch.Nfa.OfPattern
import WholeMatch.Proofs.Cloning

namespace WholeMatch

theorem Power.le_succ {r : Nat → Nat → Prop} {n i j : Nat} :
    (∃ k ≤ n + 1, Power r k i j) ↔ j = i ∨ ∃ p, r i p ∧ ∃ k ≤ n, Power r k p j := by
  constructor
  · rintro ⟨k, le, power⟩
    cases k with
    | zero => exact .inl power.symm
    | succ k =>
      obtain ⟨p, first, rest⟩ := power
      exact .inr ⟨p, first, k, by omega, rest⟩
  · rintro (rfl | ⟨p, first, k, le, rest⟩)
    · exact ⟨0, Nat.zero_le _, rfl⟩
    · exact ⟨k + 1, by omega, p, first, rest⟩

theorem Power.any {r : Nat → Nat → Prop} {i j : Nat} :
    (∃ k, Power r k i j) ↔ j = i ∨ ∃ p, r i p ∧ ∃ k, Power r k p j := by
  constructor
  · rintro ⟨k, power⟩
    cases k with
    | zero => exact .inl power.symm
    | succ k =>
      obtain ⟨p, first, rest⟩ := power
      exact .inr ⟨p, first, k, rest⟩
  · rintro (rfl | ⟨p, first, k, rest⟩)
    · exact ⟨0, rfl⟩
    · exact ⟨k + 1, p, first, rest⟩

/-- How many copies are written out: as many as the upper bound says, or the lower one where that
is above it. -/
def Repeat.written (rep : Repeat) : Nat := Nat.max rep.min (rep.max.getD rep.min)

/-- How many copies may follow those that must be there. -/
def Repeat.Further (rep : Repeat) (l : Nat) : Prop := ∀ m, rep.max = some m → l ≤ m - rep.min

theorem Repeat.copies_iff_further {rep : Repeat} {r : Nat → Nat → Prop} {i j : Nat} :
    (∃ k, rep.Copies k ∧ Power r k i j) ↔ ∃ l, rep.Further l ∧ Power r (rep.min + l) i j := by
  constructor
  · rintro ⟨k, ⟨least, most⟩, power⟩
    refine ⟨k - rep.min, fun m hm => ?_, by rwa [Nat.add_sub_cancel' least]⟩
    have := most m hm
    omega
  · rintro ⟨l, further, power⟩
    refine ⟨rep.min + l, ⟨Nat.le_add_right .., fun m hm => ?_⟩, power⟩
    have := further m hm
    omega

namespace Arena

variable {a b c : Arena} {gs : Array Guard} {base start exit current s t k : Nat}
  {template : Fragment} {live : Prop} {T P X Y : Nat → Prop}
  {R : Array Char → Nat → Nat → Prop}

/-- States are added, and the others stay what they are, the edges of those in `X` apart. -/
structure Changes (X : Nat → Prop) (a b : Arena) : Prop where
  size : a.size ≤ b.size
  targets : ∀ s, s < a.size → ¬ X s → b.targets s = a.targets s
  mark : ∀ s, s < a.size → b.mark s = a.mark s

theorem Grows.changes (h : a.Grows b) : Changes X a b :=
  ⟨h.size, fun s hs _ => h.targets s hs, h.mark⟩

theorem Changes.grows (h : Changes (fun _ => False) a b) : a.Grows b :=
  ⟨h.size, fun s hs => h.targets s hs id, h.mark⟩

theorem Changes.refl (a : Arena) : Changes X a a := (Grows.refl a).changes

theorem Changes.trans (h : Changes X a b) (h' : Changes Y b c)
    (sub : ∀ s, s < a.size → Y s → X s) : Changes X a c where
  size := Nat.le_trans h.size h'.size
  targets s hs hn := by
    rw [h'.targets s (Nat.lt_of_lt_of_le hs h.size) (mt (sub s hs) hn), h.targets s hs hn]
  mark s hs := (h'.mark s (Nat.lt_of_lt_of_le hs h.size)).trans (h.mark s hs)

theorem Changes.mono (h : Changes X a b) (sub : ∀ s, X s → Y s) : Changes Y a b :=
  { h with targets := fun s hs hn => h.targets s hs (mt (sub s) hn) }

theorem changes_withEdge (hs : s < a.size) : Changes (· = s) a (a.withEdge s t) where
  size := Nat.le_of_eq size_withEdge.symm
  targets i _ hn := by rw [targets_withEdge hs, if_neg hn]
  mark i _ := mark_withEdge

/-- What changes leave alone. -/
theorem Changes.alike (h : Changes X a b) (inside : ∀ s, T s → s < a.size)
    (only : ∀ s, T s → X s → s = t) : Graph.Alike (graphOf a gs) (graphOf b gs) T t where
  guard s hs := by simp only [graphOf, h.mark s (inside s hs)]
  targets s hs hn := h.targets s (inside s hs) fun hx => hn (only s hs hx)

/-- The number of clones among `n` copies: all of them, if the template is taken already. -/
def clones (taken : Bool) (n : Nat) : Nat := if taken then n else n - 1

theorem clones_succ (taken : Bool) (n : Nat) :
    clones taken (n + 1) = clones taken 1 + clones true n := by
  cases taken <;> simp [clones, Nat.add_comm]

/-- The template and its clones: as many copies as there are, and one if there are none. -/
theorem template_add_clones (n k : Nat) : k + clones false n * k = k * Nat.max n 1 := by
  cases n with
  | zero => simp [clones]
  | succ n =>
    have copies : Nat.max (n + 1) 1 = n + 1 := Nat.max_eq_left (Nat.le_add_left 1 n)
    rw [copies, Nat.mul_succ, Nat.mul_comm, Nat.add_comm]
    rfl

/-- An arena with a fragment to make copies of. -/
structure Template (live : Prop) (a : Arena) (gs : Array Guard) (base : Nat)
    (template : Fragment) (T : Nat → Prop) (R : Array Char → Nat → Nat → Prop) : Prop where
  sound : a.Sound gs.size
  above : a.Above base
  base_le : base ≤ a.size
  inside : ∀ s, T s → base ≤ s ∧ s < a.size
  holds : (graphOf a gs).Holds live T template R

namespace Template

theorem withEdge (h : Template live a gs base template T R) (hs : s < a.size) (ht : t < a.size)
    (above : base ≤ s → base ≤ t) (last : T s → s = template.stop) :
    Template live (a.withEdge s t) gs base template T R where
  sound := h.sound.withEdge hs ht
  above := h.above.withEdge hs above
  base_le := by rw [size_withEdge]; exact h.base_le
  inside i hi := by rw [size_withEdge]; exact h.inside i hi
  holds := h.holds.frame ((changes_withEdge hs).alike (fun i hi => (h.inside i hi).2) (by
    rintro i hi rfl
    exact last hi))

end Template

/-- `f` is a copy of the template in the states `N`, which are its own: they are new, unless the
template itself is not taken. -/
structure Copy (live : Prop) (a b : Arena) (gs : Array Guard) (base : Nat) (template : Fragment)
    (T : Nat → Prop) (R : Array Char → Nat → Nat → Prop) (taken : Bool) (f : Fragment)
    (N : Nat → Prop) : Prop extends Template live b gs base template T R where
  grows : a.Grows b
  untied : b.targets f.stop = []
  copied : (graphOf b gs).Holds live N f R
  new : ∀ s, N s → base ≤ s ∧ s < b.size ∧ (s < a.size → taken = false ∧ T s)
  same : T f.stop → f.stop = template.stop
  unentered : ∀ i, i < a.size → a.Unentered i → b.Unentered i

theorem Template.next (h : Template live a gs base template T R) (few : Few T k) (taken : Bool)
    (room : a.size + clones taken 1 * k ≤ words)
    (untied : taken = false → a.targets template.stop = []) :
    ∃ f b, ∃ N : Nat → Prop, a.copy template taken = .ok (f, b) ∧
      b.size ≤ a.size + clones taken 1 * k ∧ Copy live a b gs base template T R taken f N := by
  cases taken with
  | false =>
    refine ⟨template, a, T, rfl, Nat.le_add_right _ _, h, .refl a, untied rfl, h.holds,
      fun s hs => ?_, fun _ => rfl, fun _ _ alone => alone⟩
    exact ⟨(h.inside s hs).1, (h.inside s hs).2, fun _ => ⟨rfl, hs⟩⟩
  | true =>
    have one : clones true 1 * k = k := Nat.one_mul k
    rw [one] at room ⊢
    obtain ⟨f, b, hc, grows, added, sound, above, untied, N, new, holds⟩ :=
      cloneFragment_holds h.sound (fun s hs => (h.inside s hs).2) few room h.holds
    have size := grows.size
    have base_le := h.base_le
    refine ⟨f, b, N, hc, added, ?_, grows, untied, holds, fun s hs => ?_, fun ht => ?_,
      fun i old alone => alone.grow grows above old⟩
    · refine ⟨sound, h.above.grow grows above h.base_le, by omega, fun s hs => ?_, ?_⟩
      · have := h.inside s hs
        omega
      · exact h.holds.frame ((grows.changes (X := fun _ => False)).alike
          (fun s hs => (h.inside s hs).2) (by simp))
    · have := new s hs
      exact ⟨by omega, by omega, fun old => by omega⟩
    · have := (new f.stop holds.stop).1
      have := (h.inside f.stop ht).2
      omega

/-- Where a row ends: behind its last copy, or at the start while there is none. -/
def rowEnd (start : Nat) (last : Option Fragment) : Nat := (last.map (·.stop)).getD start

/-- A row of `n` copies behind `start`. The template is taken for the first of them. -/
structure Row (live : Prop) (a : Arena) (gs : Array Guard) (base : Nat) (template : Fragment)
    (T : Nat → Prop) (R : Array Char → Nat → Nat → Prop) (start exit n : Nat)
    (last : Option Fragment) (P : Nat → Prop) : Prop
    extends Template live a gs base template T R where
  free : a.mark exit = none
  beyond : base ≤ exit ∧ exit < a.size ∧ ¬ T exit
  within : ∀ s, P s → base ≤ s ∧ s < a.size ∧ s ≠ exit
  chain : (graphOf a gs).Holds live P ⟨start, rowEnd start last⟩ fun text => Power (R text) n
  untied : a.targets (rowEnd start last) = []
  tail : T (rowEnd start last) → rowEnd start last = template.stop
  untaken : last = none → (∀ s, P s → ¬ T s) ∧ a.targets template.stop = []
  latest : ∀ l, last = some l → ∃ L : Nat → Prop, (∀ s, L s → P s) ∧ ¬ L start ∧
    (graphOf a gs).Holds live L l R
  aside : ¬ T start
  unentered : a.Unentered start

namespace Row

variable {n : Nat} {last : Option Fragment}

theorem end_lt (h : Row live a gs base template T R start exit n last P) :
    base ≤ rowEnd start last ∧ rowEnd start last < a.size ∧ rowEnd start last ≠ exit :=
  h.within _ h.chain.stop

/-- A copy is put behind the row. -/
theorem succ (h : Row live a gs base template T R start exit n last P) (few : Few T k)
    (room : a.size + clones last.isSome 1 * k ≤ words) :
    ∃ f b, ∃ N : Nat → Prop, a.copy template last.isSome = .ok (f, b) ∧
      b.size ≤ a.size + clones last.isSome 1 * k ∧ a.Grows b ∧
      (f.stop < a.size → f.stop = template.stop) ∧
      Row live (b.withEdge (rowEnd start last) f.start) gs base template T R start exit (n + 1)
        (some f) (fun s => P s ∨ N s) := by
  obtain ⟨endBase, endLt, endExit⟩ := h.end_lt
  obtain ⟨f, b, N, hc, added, next⟩ := h.toTemplate.next few last.isSome room fun none' =>
    (h.untaken (Option.not_isSome_iff_eq_none.mp (by simp [none']))).2
  have grows := next.grows
  have holds := next.copied
  have new := next.new
  have size := grows.size
  have there : rowEnd start last < b.size := by omega
  have apart : ∀ s, P s → ¬ N s := by
    intro s hp hn
    obtain ⟨none', ht⟩ := (new s hn).2.2 (h.within s hp).2.1
    exact (h.untaken (Option.not_isSome_iff_eq_none.mp (by simp [none']))).1 s hp ht
  have outside : ∀ s, N s → s ≠ rowEnd start last := by
    rintro s hn rfl
    exact apart _ h.chain.stop hn
  obtain ⟨startBase, startLt, _⟩ := new f.start holds.start
  have edge := changes_withEdge (t := f.start) there
  have chain : (graphOf (b.withEdge (rowEnd start last) f.start) gs).Holds live P
      ⟨start, rowEnd start last⟩ fun text => Power (R text) n := by
    refine h.chain.frame ((grows.changes.trans edge fun _ _ => id).alike
      (fun s hs => (h.within s hs).2.1) ?_)
    exact fun s _ same => same
  have copy : (graphOf (b.withEdge (rowEnd start last) f.start) gs).Holds live N f R :=
    holds.frame (edge.alike (fun s hs => (new s hs).2.1) fun s hs same =>
      absurd same (outside s hs))
  refine ⟨f, b, N, hc, added, grows, fun old => next.same ((new _ holds.stop).2.2 old).2, ?_⟩
  constructor
  case toTemplate =>
    exact next.toTemplate.withEdge there startLt (fun _ => startBase) fun ht => h.tail ht
  case free => rw [mark_withEdge, grows.mark _ h.beyond.2.1, h.free]
  case beyond =>
    rw [size_withEdge]
    have := h.beyond
    exact ⟨this.1, by omega, this.2.2⟩
  case within =>
    rw [size_withEdge]
    rintro s (hs | hs)
    · have := h.within s hs
      exact ⟨this.1, by omega, this.2.2⟩
    · obtain ⟨above, below, old⟩ := new s hs
      refine ⟨above, below, ?_⟩
      rintro rfl
      exact h.beyond.2.2 (old h.beyond.2.1).2
  case chain =>
    have tied : (b.withEdge (rowEnd start last) f.start).targets (rowEnd start last) =
        [f.start] := by
      rw [targets_withEdge there, if_pos rfl, grows.targets _ endLt, h.untied]
      rfl
    exact (chain.andThen copy apart tied).congr fun text i j => Power.succ_last.symm
  case untied =>
    change (b.withEdge (rowEnd start last) f.start).targets f.stop = []
    rw [targets_withEdge there, if_neg (outside _ holds.stop), next.untied]
  case tail => exact next.same
  case untaken => simp
  case latest =>
    rintro l same
    cases same
    exact ⟨N, fun s hs => .inr hs, apart start h.chain.start, copy⟩
  case aside => exact h.aside
  case unentered =>
    have old := (h.within start h.chain.start).2.1
    exact (next.unentered start old h.unentered).withEdge there
      fun same => apart start h.chain.start (same ▸ holds.start)

end Row

/-- **So many copies stand in a row.** -/
theorem mandatory_row (few : Few T k) (n : Nat) : ∀ {a : Arena} {j : Nat} {last : Option Fragment}
    {P : Nat → Prop}, Row live a gs base template T R start exit j last P →
    a.size + clones last.isSome n * k ≤ words →
    ∃ last' b, ∃ P' : Nat → Prop, mandatory template start n last a = .ok (last', b) ∧
      b.size ≤ a.size + clones last.isSome n * k ∧
      Row live b gs base template T R start exit (j + n) last' P' ∧
      Changes (fun s => s = template.stop ∨ s = rowEnd start last) a b ∧
      (rowEnd start last' < a.size →
        rowEnd start last' = template.stop ∨ rowEnd start last' = rowEnd start last) := by
  induction n with
  | zero =>
    intro a j last P h _
    exact ⟨last, a, P, rfl, Nat.le_add_right _ _, h, .refl a, fun _ => .inr rfl⟩
  | succ n ih =>
    intro a j last P h room
    rw [clones_succ, Nat.add_mul] at room ⊢
    obtain ⟨f, b, N, hc, added, grows, old, h₁⟩ := h.succ few (by omega)
    have there : rowEnd start last < b.size := Nat.lt_of_lt_of_le h.end_lt.2.1 grows.size
    have same : (b.withEdge (rowEnd start last) f.start).size = b.size := size_withEdge
    obtain ⟨last', b', P', hm, added', h', changes, final⟩ := ih h₁ (by
      rw [same, Option.isSome_some]
      omega)
    refine ⟨last', b', P', ?_, ?_, by rwa [Nat.add_right_comm] at h', ?_, fun lt => .inl ?_⟩
    · rw [mandatory, hc, ok_bind]
      exact (congrArg (· >>= _) (connect_of_lt there)).trans hm
    · rw [same, Option.isSome_some] at added'
      omega
    · refine (grows.changes.trans (changes_withEdge there) fun _ _ same => .inr same).trans changes
        fun s hs => ?_
      rintro (rfl | rfl)
      · exact .inl rfl
      · exact .inl (old hs)
    · rw [size_withEdge] at final
      rcases final (Nat.lt_of_lt_of_le lt grows.size) with same | same
      · exact same
      · rw [same] at lt ⊢
        exact old lt

/-- Copies were put in a row up to `current`, which leads on to the exit. -/
structure Leaving (live : Prop) (a : Arena) (gs : Array Guard) (base : Nat)
    (template : Fragment) (T : Nat → Prop) (R : Array Char → Nat → Nat → Prop)
    (exit current : Nat) (taken : Bool) : Prop extends Template live a gs base template T R where
  free : a.mark exit = none
  beyond : base ≤ exit ∧ exit < a.size ∧ ¬ T exit
  here : base ≤ current ∧ current < a.size ∧ current ≠ exit
  tied : a.targets current = [exit]
  last : T current → current = template.stop ∧ taken = true
  untied : taken = false → a.targets template.stop = []

/-- The copy `f` was put behind `current`, in the states `N`, and leads on to the exit. -/
structure Added (live : Prop) (a b : Arena) (gs : Array Guard) (base : Nat) (template : Fragment)
    (T : Nat → Prop) (R : Array Char → Nat → Nat → Prop) (exit current : Nat) (taken : Bool)
    (f : Fragment) (N : Nat → Prop) : Prop where
  leaving : Leaving live b gs base template T R exit f.stop true
  changes : Changes (fun s => s = current ∨ s = template.stop ∧ taken = false) a b
  same : f.stop < a.size → f.stop = template.stop ∧ taken = false
  copied : (graphOf b gs).Holds live N f R
  new : ∀ s, N s → s < b.size ∧ s ≠ current ∧ s ≠ exit
  tied : ∀ t, t ∈ b.targets current ↔ t = f.start ∨ t = exit
  unentered : ∀ i, i < a.size → ¬ T i → i ≠ exit → a.Unentered i → b.Unentered i

/-- A copy that may be left out is put behind `current`. -/
theorem Leaving.succ {taken : Bool} (h : Leaving live a gs base template T R exit current taken)
    (few : Few T k) (room : a.size + clones taken 1 * k ≤ words) :
    ∃ f b c d, ∃ N : Nat → Prop, a.copy template taken = .ok (f, b) ∧
      b.connect current f.start = .ok c ∧ c.connect f.stop exit = .ok d ∧
      d.size ≤ a.size + clones taken 1 * k ∧
      Added live a d gs base template T R exit current taken f N := by
  obtain ⟨f, b, N, hc, more, next⟩ := h.next few taken room h.untied
  have grows := next.grows
  have holds := next.copied
  have new := next.new
  have size := grows.size
  obtain ⟨curBase, curLt, curExit⟩ := h.here
  obtain ⟨exitBase, exitLt, exitOut⟩ := h.beyond
  obtain ⟨startBase, startLt, startOld⟩ := new f.start holds.start
  obtain ⟨stopBase, stopLt, stopOld⟩ := new f.stop holds.stop
  have outside : ∀ s, N s → s ≠ current := by
    rintro s hs rfl
    obtain ⟨free', ht⟩ := (new s hs).2.2 curLt
    rw [(h.last ht).2] at free'
    cases free'
  have exitNew : ∀ s, N s → s ≠ exit := by
    rintro s hs rfl
    exact exitOut ((new s hs).2.2 exitLt).2
  have there : current < b.size := by omega
  have there₁ : f.stop < (b.withEdge current f.start).size := by rw [size_withEdge]; exact stopLt
  have first := changes_withEdge (t := f.start) there
  have second := changes_withEdge (t := exit) there₁
  have both : Changes (fun s => s = current ∨ s = f.stop) b
      ((b.withEdge current f.start).withEdge f.stop exit) :=
    (first.mono fun _ => .inl).trans second fun _ _ => .inr
  have old : f.stop < a.size → f.stop = template.stop ∧ taken = false :=
    fun lt => ⟨next.same (stopOld lt).2, (stopOld lt).1⟩
  refine ⟨f, b, _, _, N, hc, connect_of_lt there, connect_of_lt there₁, ?_, ?_⟩
  · rw [size_withEdge, size_withEdge]
    exact more
  constructor
  case leaving =>
    have template' := (next.toTemplate.withEdge there startLt (fun _ => startBase)
      fun ht => (h.last ht).1).withEdge there₁ (by rw [size_withEdge]; omega)
      (fun _ => exitBase) next.same
    refine ⟨template', ?_, ⟨exitBase, ?_, exitOut⟩, ⟨stopBase, ?_, exitNew _ holds.stop⟩, ?_,
      fun ht => ⟨next.same ht, rfl⟩, by simp⟩
    · rw [mark_withEdge, mark_withEdge, grows.mark _ exitLt, h.free]
    · rw [size_withEdge, size_withEdge]; omega
    · rw [size_withEdge, size_withEdge]; omega
    · rw [targets_withEdge there₁, if_pos rfl, targets_withEdge there,
        if_neg (outside _ holds.stop), next.untied]
      rfl
  case changes =>
    apply grows.changes.trans both
    intro s hs
    rintro (rfl | rfl)
    · exact .inl rfl
    · exact .inr (old hs)
  case same => exact old
  case copied =>
    exact holds.frame (both.alike (fun s hs => (new s hs).2.1) fun s hs same =>
      same.resolve_left (outside s hs))
  case new =>
    intro s hs
    rw [size_withEdge, size_withEdge]
    exact ⟨(new s hs).2.1, outside s hs, exitNew s hs⟩
  case tied =>
    intro t
    rw [targets_withEdge there₁, if_neg (Ne.symm (outside _ holds.stop)), targets_withEdge there,
      if_pos rfl, grows.targets _ curLt, h.tied, mem_addNew, List.mem_singleton, or_comm]
  case unentered =>
    intro i lt aside other before
    apply ((next.unentered i lt before).withEdge there _).withEdge there₁ other
    rintro rfl
    exact aside (startOld lt).2

/-- What was put behind `current` leads to the exit and crosses so many copies as `more` says. -/
structure Onward (live : Prop) (a b : Arena) (gs : Array Guard) (base : Nat) (template : Fragment)
    (R : Array Char → Nat → Nat → Prop) (exit current : Nat) (taken : Bool)
    (more : Nat → Prop) : Prop where
  changes : Changes (fun s => s = current ∨ s = template.stop ∧ taken = false) a b
  sound : b.Sound gs.size
  above : b.Above base
  drains : live → (graphOf b gs).Drains ⟨current, exit⟩
  runs : ∀ text q j, (graphOf b gs).RunTo text exit (current, q) (exit, j) ↔
    ∃ k, more k ∧ Power (R text) k q j

/-- **From a place that leads to the exit, up to so many copies more.** -/
theorem optional_runs (few : Few T k) (n : Nat) : ∀ {a : Arena} {current : Nat} {taken : Bool},
    Leaving live a gs base template T R exit current taken →
    a.size + clones taken n * k ≤ words →
    ∃ b, optional template exit n current taken a = .ok b ∧ b.size ≤ a.size + clones taken n * k ∧
      Onward live a b gs base template R exit current taken (· ≤ n) ∧
      ∀ i, i < a.size → ¬ T i → i ≠ exit → a.Unentered i → b.Unentered i := by
  induction n with
  | zero =>
    intro a current taken h _
    have tied : (graphOf a gs).targets current = [exit] := h.tied
    refine ⟨a, rfl, Nat.le_add_right _ _,
      ⟨.refl a, h.sound, h.above, fun _ => ?_, fun text q j => ?_⟩, fun _ _ _ _ alone => alone⟩
    · exact Graph.drains_tied h.here.2.2 tied Graph.drains_self
    · simp only [Graph.runTo_iff h.here.2.2, tied, List.mem_singleton, exists_eq_left,
        Graph.crosses_self (guard_of_mark h.free), Nat.le_zero, Power]
      exact eq_comm
  | succ n ih =>
    intro a current taken h room
    rw [clones_succ, Nat.add_mul] at room ⊢
    obtain ⟨f, b, c, d, N, hc, hs, he, first, added⟩ := h.succ few (by omega)
    obtain ⟨e, ho, later, rest, alone⟩ := ih added.leaving (by omega)
    have stays := h.here.2.1
    have there := Nat.lt_of_lt_of_le stays added.changes.size
    have exitOut : ¬ N exit := fun hs => (added.new exit hs).2.2 rfl
    have copy : (graphOf e gs).Holds live N f R := by
      apply added.copied.frame (rest.changes.alike (fun s hs => (added.new s hs).1) _)
      rintro s _ (same | ⟨_, wrong⟩)
      · exact same
      · cases wrong
    have tied : ∀ t, t ∈ (graphOf e gs).targets current ↔ t = f.start ∨ t = exit := by
      intro t
      rw [← added.tied t, ← rest.changes.targets current there]
      · rfl
      · rintro (same | ⟨_, wrong⟩)
        · exact (added.new _ added.copied.stop).2.1 same.symm
        · cases wrong
    refine ⟨e, ?_, by omega, ⟨added.changes.trans rest.changes ?_, rest.sound, rest.above,
      fun living => ?_, fun text q j => ?_⟩, fun i lt aside other before => ?_⟩
    · rw [optional, hc, ok_bind]
      simp only [hs, he, ok_bind, ho]
    · rintro s lt (rfl | ⟨_, wrong⟩)
      · exact .inr (added.same lt)
      · cases wrong
    · have onward := (copy.drains living).via (rest.drains living) copy.within copy.start exitOut
      exact Graph.drains_either h.here.2.2 tied onward
    · have free : (graphOf e gs).guard exit = none :=
        guard_of_mark ((rest.changes.mark exit added.leaving.beyond.2.1).trans added.leaving.free)
      simp only [Graph.runTo_iff h.here.2.2, tied, Power.le_succ, or_and_right, exists_or,
        exists_eq_left, Graph.crosses_self free, Graph.crosses_via copy exitOut, rest.runs,
        or_comm]
    · have lt' := Nat.lt_of_lt_of_le lt added.changes.size
      exact alone i lt' aside other (added.unentered i lt aside other before)

/-- A state without edges is led to two others. -/
theorem connect_both (sound : a.Sound gs.size) (above : a.Above base) (hs : s < a.size)
    (ht : base ≤ t ∧ t < a.size) (he : base ≤ exit ∧ exit < a.size) (untied : a.targets s = []) :
    ∃ b c, a.connect s t = .ok b ∧ b.connect s exit = .ok c ∧ Changes (· = s) a c ∧
      c.size = a.size ∧ c.Sound gs.size ∧ c.Above base ∧
      (∀ i, i ∈ c.targets s ↔ i = t ∨ i = exit) ∧
      ∀ i, i ≠ t → i ≠ exit → a.Unentered i → c.Unentered i := by
  have hs₁ : s < (a.withEdge s t).size := by rw [size_withEdge]; exact hs
  have he₁ : exit < (a.withEdge s t).size := by rw [size_withEdge]; exact he.2
  refine ⟨_, _, connect_of_lt hs, connect_of_lt hs₁, ?_, by rw [size_withEdge, size_withEdge],
    ?_, ?_, fun i => ?_,
    fun i other other' alone => (alone.withEdge hs other).withEdge hs₁ other'⟩
  · exact (changes_withEdge hs).trans (changes_withEdge hs₁) fun _ _ => id
  · exact (sound.withEdge hs ht.2).withEdge hs₁ he₁
  · exact (above.withEdge hs fun _ => ht.1).withEdge hs₁ fun _ => he.1
  · rw [targets_withEdge hs₁, if_pos rfl, mem_addNew, targets_withEdge hs, if_pos rfl, mem_addNew,
      untied]
    simp

/-- **From the end of a row, as many copies more as one likes.** -/
theorem looping_runs {n : Nat} {last : Option Fragment}
    (h : Row live a gs base template T R start exit n last P) :
    ∃ b, a.looping template start exit last = .ok b ∧ b.size = a.size ∧
      Onward live a b gs base template R exit (rowEnd start last) last.isSome (fun _ => True) ∧
      b.Unentered start := by
  obtain ⟨exitBase, exitLt, exitOut⟩ := h.beyond
  have startExit : start ≠ exit := (h.within start h.chain.start).2.2
  cases last with
  | some l =>
    obtain ⟨L, sub, other, holds⟩ := h.latest l rfl
    obtain ⟨startBase, startLt, _⟩ := h.within _ (sub _ holds.start)
    obtain ⟨b, c, hb, hc, changes, same, sound, above, tied, alone⟩ := connect_both (t := l.start)
      h.sound h.above h.end_lt.2.1 ⟨startBase, startLt⟩ ⟨exitBase, exitLt⟩ h.untied
    have chain := h.chain.frame (changes.alike (fun s hs => (h.within s hs).2.1) fun _ _ => id)
    have loop := holds.frame (changes.alike (fun s hs => (h.within s (sub s hs)).2.1) fun _ _ => id)
    have outside : ¬ P exit := fun hs => (h.within exit hs).2.2 rfl
    refine ⟨c, by rw [looping]; exact (congrArg (· >>= _) hb).trans hc, same,
      ⟨changes.mono fun _ => .inl, sound, above, fun living => ?_, fun text q j => ?_⟩,
      alone start (fun same => other (same ▸ holds.start)) startExit h.unentered⟩
    · exact (loop.drains living).looped loop.within loop.start loop.stop
        (fun hs => outside (sub _ hs)) tied
    · simp only [true_and]
      exact chain.looped loop rfl outside sub
        (guard_of_mark ((changes.mark exit exitLt).trans h.free)) tied
  | none =>
    obtain ⟨untaken, untied⟩ := h.untaken rfl
    obtain ⟨startBase, startLt⟩ := h.inside _ h.holds.start
    obtain ⟨stopBase, stopLt⟩ := h.inside _ h.holds.stop
    obtain ⟨b, c, hb, hc, first, same, sound, above, tied, alone⟩ := connect_both (s := start)
      h.sound h.above h.end_lt.2.1 ⟨startBase, startLt⟩ ⟨exitBase, exitLt⟩ h.untied
    have other : template.stop ≠ start := fun same =>
      untaken _ h.chain.start (same ▸ h.holds.stop)
    have other' : start ≠ template.start := fun same =>
      untaken _ h.chain.start (same ▸ h.holds.start)
    have size := first.size
    obtain ⟨d, e, hd, he, second, same', sound', above', tied', alone'⟩ := connect_both
      (s := template.stop) (t := template.start) sound above (by omega) ⟨startBase, by omega⟩
      ⟨exitBase, by omega⟩ ((first.targets _ stopLt other).trans untied)
    have both : Changes (fun s => s = start ∨ s = template.stop) a e :=
      (first.mono fun _ => .inl).trans second fun _ _ => .inr
    have copy := h.holds.frame (both.alike (fun s hs => (h.inside s hs).2) (by
      rintro s hs (rfl | same)
      · exact absurd hs (untaken _ h.chain.start)
      · exact same))
    have tiedStart : ∀ t, t ∈ (graphOf e gs).targets start ↔ t = template.start ∨ t = exit := by
      intro t
      rw [← tied t, ← second.targets start (Nat.lt_of_lt_of_le h.end_lt.2.1 first.size)
        (Ne.symm other)]
      rfl
    refine ⟨e, ?_, same'.trans same,
      ⟨both.mono ?_, sound', above', fun living => ?_, fun text q j => ?_⟩,
      alone' start other' startExit (alone start other' startExit h.unentered)⟩
    · rw [looping, hb, ok_bind, hc, ok_bind, hd, ok_bind, he]
    · rintro s (rfl | rfl)
      · exact .inl rfl
      · exact .inr ⟨rfl, rfl⟩
    · have round := (copy.drains living).looped copy.within copy.start copy.stop exitOut tied'
      have onward := (copy.drains living).via round copy.within copy.start exitOut
      exact Graph.drains_either startExit tiedStart onward
    · have free : (graphOf e gs).guard exit = none :=
        guard_of_mark ((both.mark exit exitLt).trans h.free)
      change Graph.RunTo _ text exit (start, q) (exit, j) ↔ _
      simp only [Graph.runTo_iff startExit, tiedStart, or_and_right, exists_or, exists_eq_left,
        Graph.crosses_self free, Graph.crosses_via copy exitOut, true_and, Power.any (i := q),
        copy.looped copy rfl exitOut (fun _ => id) free tied', or_comm]

/-- The row itself is left as it is by what is put behind its end. -/
theorem Row.behind {n : Nat} {last : Option Fragment}
    (h : Row live a gs base template T R start exit n last P)
    (changes :
      Changes (fun s => s = rowEnd start last ∨ s = template.stop ∧ last.isSome = false) a b) :
    (graphOf b gs).Holds live P ⟨start, rowEnd start last⟩ fun text => Power (R text) n := by
  apply h.chain.frame (changes.alike (fun s hs => (h.within s hs).2.1) _)
  rintro s hs (same | ⟨rfl, none'⟩)
  · exact same
  · have none' := Option.not_isSome_iff_eq_none.mp (by simp [none'] : ¬ last.isSome = true)
    exact absurd h.holds.stop ((h.untaken none').1 _ hs)

/-- What the end of a row leads to and what the row crosses, put together. -/
theorem Row.crosses {n : Nat} {last : Option Fragment} {more : Nat → Prop}
    (h : Row live a gs base template T R start exit n last P)
    (rest : Onward live a b gs base template R exit (rowEnd start last) last.isSome more)
    {text : Array Char} {i j : Nat} :
    (graphOf b gs).Crosses text ⟨start, exit⟩ i j ↔
      ∃ l, more l ∧ Power (R text) (n + l) i j := by
  rw [Graph.crosses_via (h.behind rest.changes) fun hs => (h.within exit hs).2.2 rfl]
  simp only [rest.runs, Power.add]
  constructor
  · rintro ⟨q, first, l, hl, rest⟩; exact ⟨l, hl, q, first, rest⟩
  · rintro ⟨l, hl, q, first, rest⟩; exact ⟨q, first, l, hl, rest⟩

theorem Row.drains {n : Nat} {last : Option Fragment} {more : Nat → Prop}
    (h : Row live a gs base template T R start exit n last P)
    (rest : Onward live a b gs base template R exit (rowEnd start last) last.isSome more)
    (living : live) : (graphOf b gs).Drains ⟨start, exit⟩ := by
  have chain := h.behind rest.changes
  exact (chain.drains living).via (rest.drains living) chain.within chain.start
    fun hs => (h.within exit hs).2.2 rfl

/-- The end of a row leads to the exit, where there is a bound. -/
theorem Row.leaving {n : Nat} {last : Option Fragment}
    (h : Row live a gs base template T R start exit n last P) :
    Leaving live (a.withEdge (rowEnd start last) exit) gs base template T R exit (rowEnd start last)
      last.isSome := by
  have endLt := h.end_lt.2.1
  refine ⟨h.toTemplate.withEdge endLt h.beyond.2.1 (fun _ => h.beyond.1) h.tail, ?_, ?_, ?_, ?_,
    fun ht => ⟨h.tail ht, ?_⟩, fun none' => ?_⟩
  · rw [mark_withEdge, h.free]
  · rw [size_withEdge]; exact h.beyond
  · rw [size_withEdge]; exact h.end_lt
  · rw [targets_withEdge endLt, if_pos rfl, h.untied]
    rfl
  · cases last with
    | none => exact absurd ht ((h.untaken rfl).1 _ h.chain.stop)
    | some l => rfl
  · have none' := Option.not_isSome_iff_eq_none.mp (by simp [none'] : ¬ last.isSome = true)
    rw [targets_withEdge endLt, if_neg, (h.untaken none').2]
    exact fun same => (h.untaken none').1 _ h.chain.stop (same ▸ h.holds.stop)

/-- What leads from the end of a row to the exit of a repetition. -/
theorem Row.rest {n : Nat} {last : Option Fragment}
    (h : Row live a gs base template T R start exit n last P) (few : Few T k) (rep : Repeat)
    (room : a.size + clones last.isSome (rep.max.getD rep.min - rep.min) * k ≤ words) :
    ∃ b, (match rep.max with
        | none => a.looping template start exit last
        | some max => do
          let a ← a.connect (rowEnd start last) exit
          optional template exit (max - rep.min) (rowEnd start last) last.isSome a) = .ok b ∧
      b.size ≤ a.size + clones last.isSome (rep.max.getD rep.min - rep.min) * k ∧
      Onward live a b gs base template R exit (rowEnd start last) last.isSome rep.Further ∧
      b.Unentered start := by
  have endLt := h.end_lt.2.1
  cases bound : rep.max with
  | none =>
    obtain ⟨b, hb, same, rest, alone⟩ := looping_runs h
    exact ⟨b, hb, Nat.le_trans (Nat.le_of_eq same) (Nat.le_add_right _ _),
      { rest with runs := fun text q j => by simp [rest.runs, Repeat.Further, bound] }, alone⟩
  | some max =>
    have edge := changes_withEdge (t := exit) endLt
    obtain ⟨_, startLt, startExit⟩ := h.within start h.chain.start
    rw [bound, Option.getD_some] at room
    obtain ⟨b, hb, added, rest, alone⟩ := optional_runs few (max - rep.min) h.leaving
      (by rwa [size_withEdge])
    refine ⟨b, ?_, by rwa [size_withEdge] at added, { rest with
      changes := (edge.mono fun _ => .inl).trans rest.changes fun _ _ => id
      runs := fun text q j => by simp [rest.runs, Repeat.Further, bound] }, ?_⟩
    · simp only [connect_of_lt endLt, ok_bind, hb]
    · have before := h.unentered.withEdge (t := exit) endLt startExit
      exact alone start (size_withEdge.symm ▸ startLt) h.aside startExit before

/-- A row without copies. -/
theorem row_start (h : Template live a gs base template T R)
    (untied : a.targets template.stop = []) :
    Row live ((a.alloc none).2.alloc none).2 gs base template T R a.size (a.size + 1) 0 none
      (· = a.size) := by
  have grows : a.Grows ((a.alloc none).2.alloc none).2 := grows_alloc.trans grows_alloc
  have size : ((a.alloc none).2.alloc none).2.size = a.size + 2 := by simp only [size_alloc]
  have base_le := h.base_le
  have free : (graphOf ((a.alloc none).2.alloc none).2 gs).guard a.size = none := by
    apply guard_of_mark
    rw [mark_alloc, size_alloc, if_neg (by omega), mark_alloc, if_pos rfl]
  constructor
  case toTemplate =>
    refine ⟨(h.sound.alloc none (by simp)).alloc none (by simp), h.above.alloc.alloc, by omega,
      fun s hs => ?_, h.holds.frame (grows.changes.alike (X := fun _ => False)
        (fun s hs => (h.inside s hs).2) (by simp))⟩
    have := h.inside s hs
    omega
  case free => rw [mark_alloc, size_alloc, if_pos rfl]
  case beyond =>
    refine ⟨by omega, by omega, fun hs => ?_⟩
    have := (h.inside _ hs).2
    omega
  case within =>
    rintro s rfl
    omega
  case chain =>
    refine ⟨rfl, rfl, fun s hs hn => absurd hs hn, fun text i j => ?_, fun _ => Graph.drains_self⟩
    exact (Graph.crosses_self free).trans eq_comm
  case untied =>
    change ((a.alloc none).2.alloc none).2.targets a.size = []
    rw [targets_alloc, targets_alloc, targets_of_ge (Nat.le_refl _)]
  case tail => exact fun hs => absurd (h.inside _ hs).2 (Nat.lt_irrefl _)
  case untaken =>
    refine fun _ => ⟨?_, by rw [targets_alloc, targets_alloc, untied]⟩
    rintro s rfl hs
    exact absurd (h.inside _ hs).2 (Nat.lt_irrefl _)
  case latest => simp
  case aside => exact fun hs => absurd (h.inside _ hs).2 (Nat.lt_irrefl _)
  case unentered => exact (h.sound.unentered (Nat.le_refl _)).alloc.alloc

/-- `f` is a repetition of the template, in states of its own and those of the template. -/
structure Repeats (live : Prop) (a b : Arena) (gs : Array Guard) (base : Nat)
    (template f : Fragment) (rep : Repeat) (R : Array Char → Nat → Nat → Prop) : Prop where
  changes : Changes (· = template.stop) a b
  sound : b.Sound gs.size
  above : b.Above base
  start : a.size ≤ f.start ∧ f.start < b.size
  stop : a.size ≤ f.stop ∧ f.stop < b.size
  apart : f.start ≠ f.stop
  free : b.mark f.start = none
  untied : b.targets f.stop = []
  unentered : b.Unentered f.start
  drains : live → (graphOf b gs).Drains f
  crosses : ∀ text i j, (graphOf b gs).Crosses text f i j ↔
    ∃ k, rep.Copies k ∧ Power (R text) k i j

/-- The clones of a repetition, together. Without copies that must be there, the template itself is
still to be taken. -/
theorem clones_written {rep : Repeat} {last : Option Fragment}
    (h : mandatory template start rep.min none a = .ok (last, b)) :
    clones false rep.min * k + clones last.isSome (rep.max.getD rep.min - rep.min) * k ≤
      clones false rep.written * k := by
  rw [← Nat.add_mul]
  apply Nat.mul_le_mul_right
  by_cases none' : rep.min = 0
  · rw [none'] at h
    cases h
    simp [clones, none', Repeat.written]
  · have least : rep.min ≤ rep.written := Nat.le_max_left _ _
    have most : rep.max.getD rep.min ≤ rep.written := Nat.le_max_right _ _
    simp only [clones, Bool.false_eq_true, if_false]
    split <;> omega

/-- What a repetition is put together from, where there are ids for its entry and its exit. -/
theorem repeated_of_ok {rep : Repeat} {last : Option Fragment} (room : a.size + 2 ≤ words)
    (hm : mandatory template a.size rep.min none ((a.alloc none).2.alloc none).2 = .ok (last, b))
    (hr : (match rep.max with
        | none => b.looping template a.size (a.size + 1) last
        | some max => do
          let b ← b.connect (rowEnd a.size last) (a.size + 1)
          optional template (a.size + 1) (max - rep.min) (rowEnd a.size last) last.isSome b) =
      .ok c) :
    a.repeated template rep = .ok (⟨a.size, a.size + 1⟩, c) := by
  have start : a.size < words := by omega
  have stop : (a.alloc none).2.size < words := by rw [size_alloc]; omega
  rw [repeated, alloc_of_lt start]
  simp only
  rw [alloc_of_lt stop, size_alloc]
  simp only
  rw [hm, ok_bind]
  cases bound : rep.max with
  | none =>
    simp only [bound] at hr ⊢
    rw [hr]
    rfl
  | some max =>
    simp only [bound, rowEnd] at hr ⊢
    obtain ⟨d, hd, ho⟩ := bind_eq_ok.mp hr
    rw [hd, ok_bind, ho]
    rfl

/-- **A repetition crosses as many copies as its bounds ask for.** It is not tied to anything
behind its exit, nothing leads to its entry, and what is in front of the template stays as it is. -/
theorem repeated_crosses (h : Template live a gs base template T R) (few : Few T k)
    (untied : a.targets template.stop = []) (rep : Repeat)
    (room : a.size + 2 + clones false rep.written * k ≤ words) :
    ∃ f b, a.repeated template rep = .ok (f, b) ∧
      b.size ≤ a.size + 2 + clones false rep.written * k ∧
      Repeats live a b gs base template f rep R := by
  have h₀ := row_start h untied
  have size₀ : ((a.alloc none).2.alloc none).2.size = a.size + 2 := by simp only [size_alloc]
  have grows : a.Grows ((a.alloc none).2.alloc none).2 := grows_alloc.trans grows_alloc
  have least : clones false rep.min * k ≤ clones false rep.written * k :=
    Nat.mul_le_mul_right _ (Nat.sub_le_sub_right (Nat.le_max_left _ _) 1)
  obtain ⟨last, b, P, hm, first, h₁, before, final⟩ := mandatory_row few rep.min h₀
    (by rw [size₀, Option.isSome_none]; omega)
  have all := clones_written hm (k := k)
  rw [size₀, Option.isSome_none] at first
  rw [Nat.zero_add] at h₁
  obtain ⟨c, hr, second, rest, alone⟩ := h₁.rest few rep (by omega)
  have after := rest.changes
  have size₁ : a.size + 2 ≤ b.size := size₀ ▸ before.size
  have size₂ := after.size
  have exitOut : a.size + 1 ≠ template.stop := fun same => h₁.beyond.2.2 (same ▸ h.holds.stop)
  refine ⟨⟨a.size, a.size + 1⟩, c, repeated_of_ok (by omega) hm hr, by omega, ?_⟩
  constructor
  case changes =>
    refine (grows.changes.trans before fun s hs => ?_).trans after fun s hs => ?_
    · rintro (same | rfl)
      · exact same
      · exact absurd hs (Nat.lt_irrefl _)
    · rintro (rfl | ⟨same, _⟩)
      · rcases final (by omega) with same | same
        · exact same
        · rw [same] at hs
          exact absurd hs (Nat.lt_irrefl _)
      · exact same
  case sound => exact rest.sound
  case above => exact rest.above
  case start =>
    have room : a.size < c.size := by omega
    exact ⟨Nat.le_refl _, room⟩
  case stop =>
    have room : a.size + 1 < c.size := by omega
    exact ⟨Nat.le_succ _, room⟩
  case apart => exact Nat.ne_of_lt (Nat.lt_succ_self _)
  case free =>
    change c.mark a.size = none
    rw [after.mark _ (by omega), before.mark _ (by omega), mark_alloc, size_alloc,
      if_neg (by omega), mark_alloc, if_pos rfl]
  case untied =>
    change c.targets (a.size + 1) = []
    rw [after.targets _ (by omega), before.targets _ (by omega), targets_alloc, targets_alloc,
      targets_of_ge (by omega)]
    · rintro (same | same)
      · exact exitOut same
      · simp [rowEnd] at same
    · rintro (same | ⟨same, _⟩)
      · exact h₁.end_lt.2.2 same.symm
      · exact exitOut same
  case unentered => exact alone
  case drains => exact h₁.drains rest
  case crosses =>
    intro text i j
    rw [h₁.crosses rest, Repeat.copies_iff_further]

end Arena

end WholeMatch
