import WholeMatch.Proofs.Graphs

/-!
A run crosses a fragment when it enters at the start and goes on to the stop, inside the fragment
all the way: it may come to the stop as often as it likes, but what leads on from there is not the
fragment's. So a fragment crosses the same whatever it is tied to behind its stop.

* `Graph.Drains`: whatever a fragment comes to leads on to its stop;
* `Graph.Holds`: a set of states that only the stop leads out of, and what crossing it relates;
* `Holds.frame`: what goes on outside the set, or behind the stop, does not change that;
* `runTo_via`: a run that leaves the set comes through the stop;
* `Holds.andThen`, `Holds.looped`: fragments one behind the other, and a fragment that loops;
* `Holds.mirror`: an image of a fragment crosses what the fragment does.
-/

namespace WholeMatch

namespace Graph

variable {g g' : Graph} {text : Array Char}

/-- Runs that go no further from `stop`. -/
def RunTo (g : Graph) (text : Array Char) (stop : Nat) : Nat × Nat → Nat × Nat → Prop :=
  Relation.ReflTransGen fun x y => x.1 ≠ stop ∧ g.Step text x y

/-- From `i` to `j` by entering `start` and going on to `stop`. -/
def Crosses (g : Graph) (text : Array Char) (f : Fragment) (i j : Nat) : Prop :=
  ∃ p, g.Enters text f.start i p ∧ g.RunTo text f.stop (f.start, p) (f.stop, j)

/-- The set is left from `stop` only. -/
def Within (g : Graph) (S : Nat → Prop) (stop : Nat) : Prop :=
  ∀ s, S s → s ≠ stop → ∀ t ∈ g.targets s, S t

/-- Some edges on, whatever their guards, but not behind `stop`. -/
def UpTo (g : Graph) (stop : Nat) : Nat → Nat → Prop :=
  Relation.ReflTransGen fun s t => s ≠ stop ∧ t ∈ g.targets s

/-- Whatever the fragment comes to leads on to its stop. -/
def Drains (g : Graph) (f : Fragment) : Prop :=
  ∀ s, g.UpTo f.stop f.start s → g.UpTo f.stop s f.stop

/-- A fragment that lies in a set of states which is left from its stop only, and that crosses
what `R` relates. When it is `live`, it drains. -/
structure Holds (g : Graph) (live : Prop) (S : Nat → Prop) (f : Fragment)
    (R : Array Char → Nat → Nat → Prop) : Prop where
  start : S f.start
  stop : S f.stop
  within : g.Within S f.stop
  crosses : ∀ text i j, g.Crosses text f i j ↔ R text i j
  drains : live → g.Drains f

theorem runTo_self {s p q : Nat} : g.RunTo text s (s, p) (s, q) ↔ q = p := by
  constructor
  · intro run
    rcases Relation.ReflTransGen.cases_head run with same | ⟨y, ⟨moved, _⟩, _⟩
    · cases same; rfl
    · exact absurd rfl moved
  · rintro rfl; exact .refl

/-- A run from anywhere else begins with an edge. -/
theorem runTo_iff {s stop p q : Nat} (h : s ≠ stop) :
    g.RunTo text stop (s, p) (stop, q) ↔ ∃ t ∈ g.targets s, g.Crosses text ⟨t, stop⟩ p q := by
  constructor
  · intro run
    rcases Relation.ReflTransGen.cases_head run with same | ⟨⟨t, r⟩, ⟨_, edge, enters⟩, onward⟩
    · cases same; exact absurd rfl h
    · exact ⟨t, edge, r, enters, onward⟩
  · rintro ⟨t, edge, r, enters, onward⟩
    exact .head ⟨h, edge, enters⟩ onward

theorem crosses_free {s stop p q : Nat} (h : g.guard s = none) :
    g.Crosses text ⟨s, stop⟩ p q ↔ g.RunTo text stop (s, p) (stop, q) := by
  simp [Crosses, enters_of_guard_none h]

theorem crosses_self {s p q : Nat} (free : g.guard s = none) :
    g.Crosses text ⟨s, s⟩ p q ↔ q = p :=
  (crosses_free free).trans runTo_self

/-- A run that leaves a set comes through its stop. -/
theorem runTo_via {S : Nat → Prop} {stop exit : Nat} (within : g.Within S stop)
    (outside : ¬ S exit) {x : Nat × Nat} (inside : S x.1) {j : Nat} :
    g.RunTo text exit x (exit, j) ↔
      ∃ q, g.RunTo text stop x (stop, q) ∧ g.RunTo text exit (stop, q) (exit, j) := by
  constructor
  · intro run
    induction run using Relation.ReflTransGen.head_induction_on with
    | refl => exact absurd inside outside
    | @head a c step run ih =>
      obtain ⟨s, p⟩ := a
      by_cases last : s = stop
      · subst last
        exact ⟨p, .refl, .head step run⟩
      · obtain ⟨q, first, onward⟩ := ih (within s inside last _ step.2.1)
        exact ⟨q, .head ⟨last, step.2⟩ first, onward⟩
  · rintro ⟨q, first, onward⟩
    induction first using Relation.ReflTransGen.head_induction_on with
    | refl => exact onward
    | @head a c step _ ih =>
      have left : a.1 ≠ exit := fun same => outside (same ▸ inside)
      exact .head ⟨left, step.2⟩ (ih (within _ inside step.1 _ step.2.1))

theorem crosses_via {live : Prop} {S : Nat → Prop} {f : Fragment}
    {R : Array Char → Nat → Nat → Prop} (h : g.Holds live S f R) {exit : Nat}
    (outside : ¬ S exit) {i j : Nat} :
    g.Crosses text ⟨f.start, exit⟩ i j ↔
      ∃ q, R text i q ∧ g.RunTo text exit (f.stop, q) (exit, j) := by
  simp only [← h.crosses]
  constructor
  · rintro ⟨p, enters, run⟩
    obtain ⟨q, first, onward⟩ := (runTo_via h.within outside h.start).mp run
    exact ⟨q, ⟨p, enters, first⟩, onward⟩
  · rintro ⟨q, ⟨p, enters, first⟩, onward⟩
    exact ⟨p, enters, (runTo_via h.within outside h.start).mpr ⟨q, first, onward⟩⟩

section

variable {S : Nat → Prop} {s t start stop exit back : Nat}

theorem UpTo.reach (path : g.UpTo stop s t) : g.Reach s t := by
  induction path with
  | refl => exact .refl
  | tail _ step ih => exact ih.tail step.2

/-- Where nothing leads on from the stop, no way goes on behind it. -/
theorem upTo_iff_reach (untied : g.targets stop = []) : g.UpTo stop s t ↔ g.Reach s t := by
  constructor
  · exact UpTo.reach
  · intro path
    induction path with
    | refl => exact .refl
    | @tail u v _ edge ih =>
      apply ih.tail
      refine ⟨?_, edge⟩
      rintro rfl
      rw [untied] at edge
      cases edge

theorem UpTo.inside (path : g.UpTo stop s t) (within : g.Within S stop) (here : S s) : S t := by
  induction path with
  | refl => exact here
  | tail _ step ih => exact within _ ih step.1 _ step.2

/-- A way in a set does not come to what is outside of it. -/
theorem UpTo.passing (path : g.UpTo stop s t) (within : g.Within S stop) (here : S s)
    (outside : ¬ S exit) : g.UpTo exit s t := by
  induction path with
  | refl => exact .refl
  | tail before step ih =>
    have inside := UpTo.inside before within here
    exact ih.tail ⟨fun same => outside (same ▸ inside), step.2⟩

/-- A way comes to a state without going on behind the stop, or it comes from there. -/
theorem UpTo.via (path : g.UpTo exit s t) : g.UpTo stop s t ∨ g.UpTo exit stop t := by
  induction path with
  | refl => exact .inl .refl
  | @tail u v _ step ih =>
    rcases ih with before | behind
    · by_cases last : u = stop
      · subst last
        exact .inr (.single step)
      · exact .inl (before.tail ⟨last, step.2⟩)
    · exact .inr (behind.tail step)

theorem drains_self : g.Drains ⟨stop, stop⟩ := by
  intro s path
  rcases Relation.ReflTransGen.cases_head path with same | ⟨_, step, _⟩
  · exact same ▸ .refl
  · exact absurd rfl step.1

/-- A state drains when it has targets and all of them do. -/
theorem drains_step (left : start ≠ exit) (some : ∃ t, t ∈ g.targets start)
    (onward : ∀ t ∈ g.targets start, g.Drains ⟨t, exit⟩) : g.Drains ⟨start, exit⟩ := by
  intro s path
  rcases Relation.ReflTransGen.cases_head path with same | ⟨t, step, rest⟩
  · obtain ⟨t, edge⟩ := some
    subst same
    exact .head ⟨left, edge⟩ (onward t edge t .refl)
  · exact onward t step.2 s rest

theorem drains_tied (left : start ≠ exit) (tied : g.targets start = [t])
    (onward : g.Drains ⟨t, exit⟩) : g.Drains ⟨start, exit⟩ := by
  apply drains_step left ⟨t, by simp [tied]⟩
  intro u edge
  rw [tied, List.mem_singleton] at edge
  exact edge ▸ onward

theorem drains_either (left : start ≠ exit) (tied : ∀ u, u ∈ g.targets start ↔ u = t ∨ u = exit)
    (onward : g.Drains ⟨t, exit⟩) : g.Drains ⟨start, exit⟩ := by
  apply drains_step left ⟨exit, (tied exit).mpr (.inr rfl)⟩
  intro u edge
  rcases (tied u).mp edge with rfl | rfl
  · exact onward
  · exact drains_self

/-- One behind the other, what drains goes on draining. -/
theorem Drains.via (h : g.Drains ⟨start, stop⟩) (h' : g.Drains ⟨stop, exit⟩)
    (within : g.Within S stop) (here : S start) (outside : ¬ S exit) :
    g.Drains ⟨start, exit⟩ := by
  intro s path
  rcases path.via with before | behind
  · have onward := (h s before).passing within (before.inside within here) outside
    exact onward.trans (h' stop .refl)
  · exact h' s behind

/-- A stop that leads back to where it is come to from, and to an exit, drains. -/
theorem Drains.looped (h : g.Drains ⟨back, stop⟩) (within : g.Within S stop) (here : S back)
    (inside : S stop) (outside : ¬ S exit)
    (tied : ∀ t, t ∈ g.targets stop ↔ t = back ∨ t = exit) : g.Drains ⟨stop, exit⟩ := by
  have left : stop ≠ exit := fun same => outside (same ▸ inside)
  have leaves : g.UpTo exit stop exit := .single ⟨left, (tied exit).mpr (.inr rfl)⟩
  intro s path
  -- a way from the stop is in the loop until it comes to the exit
  suffices around : s = stop ∨ s = exit ∨ g.UpTo stop back s by
    rcases around with rfl | rfl | round
    · exact leaves
    · exact .refl
    · exact ((h s round).passing within (round.inside within here) outside).trans leaves
  induction path with
  | refl => exact .inl rfl
  | @tail u v _ step ih =>
    obtain ⟨going, edge⟩ := step
    by_cases last : u = stop
    · rw [last] at edge
      rcases (tied v).mp edge with rfl | same
      · exact .inr (.inr .refl)
      · exact .inr (.inl same)
    · rcases ih with same | same | round
      · exact absurd same last
      · exact absurd same going
      · exact .inr (.inr (round.tail ⟨last, edge⟩))

end

/-- Two graphs are alike on a set of states, the edges of one of them apart. -/
structure Alike (g g' : Graph) (S : Nat → Prop) (stop : Nat) : Prop where
  guard : ∀ s, S s → g'.guard s = g.guard s
  targets : ∀ s, S s → s ≠ stop → g'.targets s = g.targets s

theorem Alike.symm {S : Nat → Prop} {stop : Nat} (h : Alike g g' S stop) : Alike g' g S stop :=
  ⟨fun s hs => (h.guard s hs).symm, fun s hs hn => (h.targets s hs hn).symm⟩

theorem Alike.within {S : Nat → Prop} {stop : Nat} (h : Alike g g' S stop)
    (within : g.Within S stop) : g'.Within S stop := by
  intro s hs hn t ht
  rw [h.targets s hs hn] at ht
  exact within s hs hn t ht

theorem Alike.enters {S : Nat → Prop} {stop s p q : Nat} (h : Alike g g' S stop) (hs : S s) :
    g'.Enters text s p q ↔ g.Enters text s p q := by
  simp only [Enters, h.guard s hs]

theorem Alike.runTo_imp {S : Nat → Prop} {stop : Nat} (h : Alike g g' S stop)
    (within : g.Within S stop) {x y : Nat × Nat} (hx : S x.1) (run : g.RunTo text stop x y) :
    g'.RunTo text stop x y := by
  induction run using Relation.ReflTransGen.head_induction_on with
  | refl => exact .refl
  | @head a c step _ ih =>
    obtain ⟨left, edge, enters⟩ := step
    have inside := within _ hx left _ edge
    refine .head ⟨left, ?_, (h.enters inside).mpr enters⟩ (ih inside)
    rw [h.targets _ hx left]
    exact edge

theorem Alike.runTo {S : Nat → Prop} {stop : Nat} (h : Alike g g' S stop)
    (within : g.Within S stop) {x y : Nat × Nat} (hx : S x.1) :
    g'.RunTo text stop x y ↔ g.RunTo text stop x y :=
  ⟨h.symm.runTo_imp (h.within within) hx, h.runTo_imp within hx⟩

theorem Alike.crosses {S : Nat → Prop} {s stop i j : Nat} (h : Alike g g' S stop)
    (within : g.Within S stop) (hs : S s) :
    g'.Crosses text ⟨s, stop⟩ i j ↔ g.Crosses text ⟨s, stop⟩ i j := by
  simp only [Crosses, h.enters hs, h.runTo within (x := (s, _)) hs]

theorem Alike.upTo {S : Nat → Prop} {s t stop : Nat} (h : Alike g g' S stop)
    (within : g.Within S stop) (hs : S s) (path : g.UpTo stop s t) : g'.UpTo stop s t := by
  induction path with
  | refl => exact .refl
  | tail before step ih =>
    apply ih.tail
    rwa [h.targets _ (UpTo.inside before within hs) step.1]

theorem Alike.drains {S : Nat → Prop} {s stop : Nat} (h : Alike g g' S stop)
    (within : g.Within S stop) (hs : S s) (drains : g.Drains ⟨s, stop⟩) :
    g'.Drains ⟨s, stop⟩ := by
  intro t path
  have before := h.symm.upTo (h.within within) hs path
  exact h.upTo within (before.inside within hs) (drains t before)

namespace Holds

variable {live live' : Prop} {S T : Nat → Prop} {f h : Fragment}
  {Q R : Array Char → Nat → Nat → Prop}

/-- A fragment holds what it does whatever goes on elsewhere, and behind its stop. -/
theorem frame (hf : g.Holds live S f R) (alike : Alike g g' S f.stop) :
    g'.Holds live S f R where
  start := hf.start
  stop := hf.stop
  within := alike.within hf.within
  crosses text i j := (alike.crosses hf.within hf.start).trans (hf.crosses text i j)
  drains living := alike.drains hf.within hf.start (hf.drains living)

theorem imp (hf : g.Holds live S f R) (weaker : live' → live) : g.Holds live' S f R :=
  { hf with drains := fun living => hf.drains (weaker living) }

theorem region (hf : g.Holds live S f R) (same : ∀ s, S s ↔ T s) : g.Holds live T f R :=
  (funext fun s => propext (same s) : S = T) ▸ hf

theorem congr (hf : g.Holds live S f R) (same : ∀ text i j, R text i j ↔ Q text i j) :
    g.Holds live S f Q :=
  { hf with crosses := fun text i j => (hf.crosses text i j).trans (same text i j) }

/-- A fragment behind another. -/
theorem andThen (hf : g.Holds live S f Q) (hh : g.Holds live T h R) (apart : ∀ s, S s → ¬ T s)
    (tied : g.targets f.stop = [h.start]) :
    g.Holds live (fun s => S s ∨ T s) ⟨f.start, h.stop⟩
      (fun text i j => ∃ p, Q text i p ∧ R text p j) where
  start := .inl hf.start
  stop := .inr hh.stop
  within s hs hn t ht := by
    rcases hs with hs | hs
    · by_cases last : s = f.stop
      · rw [last, tied] at ht
        exact .inr (List.mem_singleton.mp ht ▸ hh.start)
      · exact .inl (hf.within s hs last t ht)
    · exact .inr (hh.within s hs hn t ht)
  crosses text i j := by
    have outside : ¬ S h.stop := fun hs => apart _ hs hh.stop
    have left : f.stop ≠ h.stop := fun same => outside (same ▸ hf.stop)
    rw [crosses_via hf outside]
    simp only [runTo_iff left, tied, List.mem_singleton, exists_eq_left, hh.crosses]
  drains living := by
    have outside : ¬ S h.stop := fun hs => apart _ hs hh.stop
    have left : f.stop ≠ h.stop := fun same => outside (same ▸ hf.stop)
    have onward := drains_tied left tied (hh.drains living)
    exact (hf.drains living).via onward hf.within hf.start outside

/-- A fragment whose stop leads back to the start of a part of it, and to an exit. Every way to
the exit crosses that part some further times. -/
theorem looped (hf : g.Holds live S f Q) (hh : g.Holds live T h R) (same : h.stop = f.stop)
    {exit : Nat} (outside : ¬ S exit) (sub : ∀ s, T s → S s) (free : g.guard exit = none)
    (tied : ∀ t, t ∈ g.targets f.stop ↔ t = h.start ∨ t = exit) {q j : Nat} :
    g.RunTo text exit (f.stop, q) (exit, j) ↔ ∃ k, Power (R text) k q j := by
  have left : f.stop ≠ exit := fun e => outside (e ▸ hf.stop)
  have leaves : ∀ {q}, g.RunTo text exit (f.stop, q) (exit, q) := fun {q} =>
    .single ⟨left, (tied _).mpr (.inr rfl), (enters_of_guard_none free).mpr rfl⟩
  constructor
  · intro run
    -- inside the fragment a run still has to come to the stop, and to go round from there
    suffices inv : ∀ x : Nat × Nat, g.RunTo text exit x (exit, j) → S x.1 →
        ∃ p, g.RunTo text f.stop x (f.stop, p) ∧ ∃ k, Power (R text) k p j by
      obtain ⟨p, stays, onward⟩ := inv (f.stop, q) run hf.stop
      rw [runTo_self] at stays
      exact stays ▸ onward
    intro x run
    induction run using Relation.ReflTransGen.head_induction_on with
    | refl => exact fun inside => absurd inside outside
    | @head a c step run ih =>
      intro inside
      obtain ⟨s, p⟩ := a
      obtain ⟨t, r⟩ := c
      obtain ⟨_, edge, enters⟩ := step
      by_cases last : s = f.stop
      · subst last
        refine ⟨p, .refl, ?_⟩
        rcases (tied t).mp edge with rfl | rfl
        · obtain ⟨m, round, k, onward⟩ := ih (sub _ hh.start)
          exact ⟨k + 1, m, (hh.crosses text p m).mp ⟨r, enters, same ▸ round⟩, onward⟩
        · rw [enters_of_guard_none free] at enters
          subst enters
          exact ⟨0, (runTo_self.mp run).symm⟩
      · obtain ⟨m, first, onward⟩ := ih (hf.within s inside last t edge)
        exact ⟨m, .head ⟨last, edge, enters⟩ first, onward⟩
  · rintro ⟨k, rounds⟩
    induction k generalizing q with
    | zero => cases rounds; exact leaves
    | succ k ih =>
      obtain ⟨p, round, onward⟩ := rounds
      rw [runTo_iff left]
      have outside' : ¬ T exit := fun ht => outside (sub _ ht)
      exact ⟨h.start, (tied _).mpr (.inl rfl),
        (crosses_via hh outside').mpr ⟨p, round, same ▸ ih onward⟩⟩

end Holds

/-- `M` relates the states of a fragment to their images. Both have the same guard and, except
behind the stop, edges to related states. -/
structure Mirror (g g' : Graph) (M : Nat → Nat → Prop) (stop stop' : Nat) : Prop where
  guard : ∀ s c, M s c → g'.guard c = g.guard s
  last : ∀ s c, M s c → (s = stop ↔ c = stop')
  forth : ∀ s c, M s c → s ≠ stop → ∀ t ∈ g.targets s, ∃ d ∈ g'.targets c, M t d
  back : ∀ s c, M s c → s ≠ stop → ∀ d ∈ g'.targets c, ∃ t ∈ g.targets s, M t d

namespace Mirror

variable {M : Nat → Nat → Prop} {stop stop' s c p q : Nat}

theorem symm (h : Mirror g g' M stop stop') : Mirror g' g (fun c s => M s c) stop' stop where
  guard c s hm := (h.guard s c hm).symm
  last c s hm := (h.last s c hm).symm
  forth c s hm hn := h.back s c hm (mt (h.last s c hm).mp hn)
  back c s hm hn := h.forth s c hm (mt (h.last s c hm).mp hn)

theorem enters (h : Mirror g g' M stop stop') (hm : M s c) :
    g'.Enters text c p q ↔ g.Enters text s p q := by
  simp only [Enters, h.guard s c hm]

theorem runTo_imp (h : Mirror g g' M stop stop') {x : Nat × Nat}
    (run : g.RunTo text stop x (stop, q)) (hm : M x.1 c) :
    g'.RunTo text stop' (c, x.2) (stop', q) := by
  induction run using Relation.ReflTransGen.head_induction_on generalizing c with
  | refl =>
    rw [(h.last _ _ hm).mp rfl]
    exact .refl
  | @head a b step _ ih =>
    obtain ⟨left, edge, enters⟩ := step
    obtain ⟨d, hd, image⟩ := h.forth _ _ hm left _ edge
    exact .head ⟨mt (h.last _ _ hm).mpr left, hd, (h.enters image).mpr enters⟩ (ih image)

theorem runTo (h : Mirror g g' M stop stop') (hm : M s c) :
    g'.RunTo text stop' (c, p) (stop', q) ↔ g.RunTo text stop (s, p) (stop, q) :=
  ⟨fun run => h.symm.runTo_imp run hm, fun run => h.runTo_imp run hm⟩

theorem upTo (h : Mirror g g' M stop stop') {t : Nat} (path : g.UpTo stop s t) (hm : M s c) :
    ∃ d, M t d ∧ g'.UpTo stop' c d := by
  induction path with
  | refl => exact ⟨c, hm, .refl⟩
  | tail _ step ih =>
    obtain ⟨left, edge⟩ := step
    obtain ⟨u, hu, before⟩ := ih
    obtain ⟨d, hd, image⟩ := h.forth _ u hu left _ edge
    exact ⟨d, image, before.tail ⟨mt (h.last _ u hu).mpr left, hd⟩⟩

theorem drains (h : Mirror g g' M stop stop') (hm : M s c) (hf : g.Drains ⟨s, stop⟩) :
    g'.Drains ⟨c, stop'⟩ := by
  intro d path
  obtain ⟨t, ht, before⟩ := h.symm.upTo path hm
  obtain ⟨last, hlast, onward⟩ := h.upTo (hf t before) ht
  rwa [(h.last _ _ hlast).mp rfl] at onward

end Mirror

theorem Holds.mirror {live : Prop} {S : Nat → Prop} {f f' : Fragment}
    {R : Array Char → Nat → Nat → Prop} (hf : g.Holds live S f R) {M : Nat → Nat → Prop}
    (h : Mirror g g' M f.stop f'.stop) (start : M f.start f'.start)
    (stop : M f.stop f'.stop) : g'.Holds live (fun c => ∃ s, M s c) f' R where
  start := ⟨_, start⟩
  stop := ⟨_, stop⟩
  within := by
    rintro c ⟨s, hm⟩ hn d hd
    obtain ⟨t, _, image⟩ := h.back s c hm (mt (h.last s c hm).mp hn) d hd
    exact ⟨t, image⟩
  crosses text i j := by
    rw [← hf.crosses]
    simp only [Crosses, h.enters start, h.runTo start]
  drains living := h.drains start (hf.drains living)

end Graph

end WholeMatch
