import WholeMatch.Proofs.GuardRuns

namespace WholeMatch

namespace Backtrack

/-- From `i` to `j` by further repetitions of a group, after `count` of them, and what follows. -/
def SpansAgain (text : Array Char) (body : List Branch) (rep : Repeat) (rest : List Term)
    (count i j : Nat) : Prop :=
  ∃ k p, rep.Allows (count + k) ∧ Power (spansBranches Repeat.Allows text body) k i p ∧
    spansBranch Repeat.Allows text rest p j

def Goal.Spans (text : Array Char) : Goal → Nat → Nat → Prop
  | .branches bs, i, j => spansBranches Repeat.Allows text bs i j
  | .chain ts, i, j => spansBranch Repeat.Allows text ts i j
  | .again body rep rest count, i, j => SpansAgain text body rep rest count i j
  | .iterated body rep rest count entered, i, j =>
    ¬(rep.min ≤ count ∧ i = entered) ∧ SpansAgain text body rep rest (count + 1) i j

/-- The goals lead from a place to the end of the text. -/
def Completes (text : Array Char) : List Goal → Nat → Prop
  | [], i => i = text.size
  | goal :: cont, i => ∃ p, goal.Spans text i p ∧ Completes text cont p

def Frame.Completes (text : Array Char) : Frame → Prop
  | .resume cur cont => Backtrack.Completes text cont cur.pos
  | .shrink rest runs cont =>
    ∃ cur ∈ runs, Backtrack.Completes text (.chain rest :: cont) cur.pos

def Config.Completes (text : Array Char) : Config → Prop
  | .search cur cont stack =>
    Backtrack.Completes text cont cur.pos ∨ ∃ frame ∈ stack, frame.Completes text
  | .failed stack => ∃ frame ∈ stack, frame.Completes text

/-- The guards of a goal are plain, and no more repetitions are done than the bounds allow. -/
def Goal.Proper : Goal → Prop
  | .branches bs => plainBranches bs = true
  | .chain ts => plainBranch ts = true
  | .again body rep rest count =>
    plainBranches body = true ∧ plainBranch rest = true ∧ ∀ m, rep.max = some m → count ≤ m
  | .iterated body rep rest count _ =>
    plainBranches body = true ∧ plainBranch rest = true ∧ ∀ m, rep.max = some m → count + 1 ≤ m

def Frame.Proper (text : Array Char) : Frame → Prop
  | .resume cur cont => (Cursor.ofText text).Leads cur ∧ ∀ goal ∈ cont, goal.Proper
  | .shrink rest runs cont =>
    (∀ cur ∈ runs, (Cursor.ofText text).Leads cur) ∧ plainBranch rest = true ∧
      ∀ goal ∈ cont, goal.Proper

def Config.Proper (text : Array Char) : Config → Prop
  | .search cur cont stack =>
    (Cursor.ofText text).Leads cur ∧ (∀ goal ∈ cont, goal.Proper) ∧
      ∀ frame ∈ stack, frame.Proper text
  | .failed stack => ∀ frame ∈ stack, frame.Proper text

/-- No count of the goal can leave its word at a place of a text of that size, or behind it. For
each iteration of a group beyond the least number a character was read. -/
def Goal.Fits (size place : Nat) : Goal → Prop
  | .branches bs => countableBranches size bs = true
  | .chain ts => countableBranch size ts = true
  | .again body rep rest count =>
    countableBranches size body = true ∧ countableBranch size rest = true ∧
      rep.most size < words ∧ count ≤ rep.most place
  | .iterated body rep rest count entered =>
    countableBranches size body = true ∧ countableBranch size rest = true ∧
      rep.most size < words ∧ entered ≤ place ∧ count < rep.most (entered + 1)

def Frame.Fits (size : Nat) : Frame → Prop
  | .resume cur cont => ∀ goal ∈ cont, goal.Fits size cur.pos
  | .shrink rest runs cont =>
    ∀ cur ∈ runs, ∀ goal ∈ Goal.chain rest :: cont, goal.Fits size cur.pos

def Config.Fits (size : Nat) : Config → Prop
  | .search cur cont stack =>
    (∀ goal ∈ cont, goal.Fits size cur.pos) ∧ ∀ frame ∈ stack, frame.Fits size
  | .failed stack => ∀ frame ∈ stack, frame.Fits size

theorem Repeat.most_mono {rep : Repeat} {p q : Nat} (h : p ≤ q) : rep.most p ≤ rep.most q := by
  cases hm : rep.max with
  | none =>
    simp only [Repeat.most, hm, Option.getD_none]
    omega
  | some m => simp only [Repeat.most, hm, Option.getD_some, Nat.le_refl]

/-- Behind a place less is left to count. -/
theorem Goal.Fits.later {size p q : Nat} {goal : Goal} (h : goal.Fits size p) (behind : p ≤ q) :
    goal.Fits size q := by
  cases goal with
  | branches bs => exact h
  | chain ts => exact h
  | again body rep rest count =>
    obtain ⟨hbody, hrest, room, counted⟩ := h
    exact ⟨hbody, hrest, room, Nat.le_trans counted (Repeat.most_mono behind)⟩
  | iterated body rep rest count entered =>
    obtain ⟨hbody, hrest, room, before, counted⟩ := h
    exact ⟨hbody, hrest, room, Nat.le_trans before behind, counted⟩

/-- An iteration that is entered has been counted for. -/
theorem Goal.Fits.entered {size place : Nat} {body : List Branch} {rep : Repeat} {rest : List Term}
    {count : Nat} (h : (Goal.again body rep rest count).Fits size place)
    (more : rep.allowsMore count = true) :
    (Goal.iterated body rep rest count place).Fits size place := by
  obtain ⟨hbody, hrest, room, counted⟩ := h
  refine ⟨hbody, hrest, room, Nat.le_refl _, ?_⟩
  cases hm : rep.max with
  | none =>
    simp only [Repeat.most, hm, Option.getD_none] at counted ⊢
    omega
  | some m =>
    rw [Repeat.most, hm]
    exact Repeat.allowsMore_iff.mp more m hm

/-- An iteration that was needed, or that read something, is counted. -/
theorem Goal.Fits.counted {size place : Nat} {body : List Branch} {rep : Repeat} {rest : List Term}
    {count entered : Nat} (h : (Goal.iterated body rep rest count entered).Fits size place)
    (moved : ¬(rep.min ≤ count ∧ place = entered)) :
    (Goal.again body rep rest (count + 1)).Fits size place := by
  obtain ⟨hbody, hrest, room, before, counted⟩ := h
  refine ⟨hbody, hrest, room, ?_⟩
  cases hm : rep.max with
  | none =>
    simp only [Repeat.most, hm, Option.getD_none] at counted ⊢
    omega
  | some m =>
    rw [Repeat.most, hm] at counted ⊢
    exact counted

section
variable {text : Array Char} {body : List Branch} {rep : Repeat} {rest : List Term}
  {count i j : Nat}

/-- A group that may not be repeated again is left, if it was repeated often enough. -/
theorem again_done (bound : ∀ m, rep.max = some m → count ≤ m)
    (done : ¬ rep.allowsMore count = true) : SpansAgain text body rep rest count i j ↔
      rep.min ≤ count ∧ spansBranch Repeat.Allows text rest i j := by
  constructor
  · rintro ⟨k, p, allowed, hp, hj⟩
    have := nothing_left done allowed
    subst this
    cases hp
    exact ⟨allowed.1, hj⟩
  · rintro ⟨least, hj⟩
    exact ⟨0, i, ⟨by omega, fun m hm => bound m hm⟩, rfl, hj⟩

/-- A group that may be repeated again is left, or repeated. An empty repetition that is not needed
can be left out: the repetitions behind it begin where it began. -/
theorem again_more (more : rep.allowsMore count = true) : SpansAgain text body rep rest count i j ↔
      rep.min ≤ count ∧ spansBranch Repeat.Allows text rest i j ∨
      ∃ p, spansBranches Repeat.Allows text body i p ∧ ¬(rep.min ≤ count ∧ p = i) ∧
        SpansAgain text body rep rest (count + 1) p j := by
  rw [Repeat.allowsMore_iff] at more
  constructor
  · rintro ⟨k, p, allowed, hp, hj⟩
    induction k with
    | zero =>
      cases hp
      exact .inl ⟨allowed.1, hj⟩
    | succ k ih =>
      obtain ⟨q, hq, hp⟩ := hp
      by_cases idle : rep.min ≤ count ∧ q = i
      · obtain ⟨least, rfl⟩ := idle
        refine ih ⟨by omega, fun m hm => ?_⟩ hp
        have := allowed.2 m hm
        omega
      · have counted : count + (k + 1) = count + 1 + k := by omega
        exact .inr ⟨q, hq, idle, k, p, counted ▸ allowed, hp, hj⟩
  · rintro (⟨least, hj⟩ | ⟨p, hp, _, k, q, allowed, hq, hj⟩)
    · exact ⟨0, i, ⟨least, fun m hm => Nat.le_of_lt (more m hm)⟩, rfl, hj⟩
    · have counted : count + (k + 1) = count + 1 + k := by omega
      exact ⟨k + 1, q, counted ▸ allowed, ⟨p, hp, hq⟩, hj⟩

end

section
variable {text : Array Char} {cur : Cursor} {cont : List Goal} {stack : List Frame}

/-- What is executed to keeps what the machine keeps, and completes when the goal leads on to
something that does, or a frame does. -/
structure Executes (text : Array Char) (goal : Goal) (cur : Cursor) (cont : List Goal)
    (stack : List Frame) (d : Config) : Prop where
  proper : d.Proper text
  completes : (Config.search cur (goal :: cont) stack).Completes text ↔ d.Completes text
  fits : (Config.search cur (goal :: cont) stack).Fits text.size → d.Fits text.size

theorem completes_branches {bs : List Branch} {i : Nat} :
    Completes text (.branches bs :: cont) i ↔ ∃ b ∈ bs, Completes text (.chain b :: cont) i := by
  simp only [Completes, Goal.Spans, spansBranches_iff]
  constructor
  · rintro ⟨p, ⟨b, hb, hp⟩, hc⟩; exact ⟨b, hb, p, hp, hc⟩
  · rintro ⟨b, hb, p, hp, hc⟩; exact ⟨p, ⟨b, hb, hp⟩, hc⟩

theorem completes_guard {g : Guard} {rep : Repeat} {label : String} {rest : List Term} {i : Nat} :
    Completes text (.chain (.guard g rep label :: rest) :: cont) i ↔
      ∃ q, (∃ k, rep.Allows k ∧ Power (g.Spans text) k i q) ∧
        Completes text (.chain rest :: cont) q := by
  simp only [Completes, Goal.Spans, spansBranch, Term.Spans]
  constructor
  · rintro ⟨p, ⟨q, hq, hp⟩, hc⟩; exact ⟨q, hq, p, hp, hc⟩
  · rintro ⟨q, hq, p, hp, hc⟩; exact ⟨p, ⟨q, hq, hp⟩, hc⟩

theorem completes_group {body : List Branch} {inner label : String} {rep : Repeat}
    {rest : List Term} {i : Nat} :
    Completes text (.chain (.group body inner rep label :: rest) :: cont) i ↔
      Completes text (.again body rep rest 0 :: cont) i := by
  simp only [Completes, Goal.Spans, spansBranch, Term.Spans, SpansAgain, Nat.zero_add]
  constructor
  · rintro ⟨p, ⟨q, ⟨k, hk, hq⟩, hp⟩, hc⟩; exact ⟨p, ⟨k, q, hk, hq, hp⟩, hc⟩
  · rintro ⟨p, ⟨k, q, hk, hq, hp⟩, hc⟩; exact ⟨p, ⟨q, ⟨k, hk, hq⟩, hp⟩, hc⟩

theorem completes_again_done {body : List Branch} {rep : Repeat} {rest : List Term} {count i : Nat}
    (bound : ∀ m, rep.max = some m → count ≤ m) (done : ¬ rep.allowsMore count = true) :
    Completes text (.again body rep rest count :: cont) i ↔
      rep.min ≤ count ∧ Completes text (.chain rest :: cont) i := by
  simp only [Completes, Goal.Spans, again_done bound done]
  constructor
  · rintro ⟨p, ⟨least, hp⟩, hc⟩; exact ⟨least, p, hp, hc⟩
  · rintro ⟨least, p, hp, hc⟩; exact ⟨p, ⟨least, hp⟩, hc⟩

theorem completes_again_more {body : List Branch} {rep : Repeat} {rest : List Term} {count i : Nat}
    (more : rep.allowsMore count = true) : Completes text (.again body rep rest count :: cont) i ↔
      rep.min ≤ count ∧ Completes text (.chain rest :: cont) i ∨
      Completes text (.branches body :: .iterated body rep rest count i :: cont) i := by
  simp only [Completes, Goal.Spans, again_more more]
  constructor
  · rintro ⟨p, ⟨least, hp⟩ | ⟨q, hq, moved, hp⟩, hc⟩
    · exact .inl ⟨least, p, hp, hc⟩
    · exact .inr ⟨q, hq, p, ⟨moved, hp⟩, hc⟩
  · rintro (⟨least, p, hp, hc⟩ | ⟨q, hq, p, ⟨moved, hp⟩, hc⟩)
    · exact ⟨p, .inl ⟨least, hp⟩, hc⟩
    · exact ⟨p, .inr ⟨q, hq, moved, hp⟩, hc⟩

theorem execute_branches (hcur : (Cursor.ofText text).Leads cur)
    (hcont : ∀ goal ∈ cont, goal.Proper) (hstack : ∀ frame ∈ stack, frame.Proper text)
    {bs : List Branch} (hp : plainBranches bs = true) :
    ∃ d, execute (.branches bs) cur cont stack = .ok d ∧
      Executes text (.branches bs) cur cont stack d := by
  cases bs with
  | nil =>
    refine ⟨_, rfl, hstack, ?_, fun fits => fits.2⟩
    simp [Config.Completes, Completes, Goal.Spans, spansBranches]
  | cons b bs =>
    rw [plainBranches_iff] at hp
    have all : ∀ b' ∈ b :: bs, ∀ goal ∈ Goal.chain b' :: cont, goal.Proper :=
      fun b' hb' => List.forall_mem_cons.mpr ⟨hp b' hb', hcont⟩
    refine ⟨_, rfl, ⟨hcur, all b (by simp), fun frame hframe => ?_⟩, ?_, fun fits => ?_⟩
    · rcases List.mem_append.mp hframe with hframe | hframe
      · obtain ⟨b', hb', rfl⟩ := List.mem_map.mp hframe
        exact ⟨hcur, all b' (by simp [hb'])⟩
      · exact hstack frame hframe
    · simp only [Config.Completes, completes_branches, List.mem_append, List.mem_map, or_and_right,
        exists_or, List.mem_cons, exists_eq_left, or_assoc, exists_exists_and_eq_and,
        Frame.Completes]
    · obtain ⟨goals, frames⟩ := fits
      obtain ⟨first, behind⟩ := List.forall_mem_cons.mp goals
      have each : ∀ b' ∈ b :: bs, ∀ goal ∈ Goal.chain b' :: cont, goal.Fits text.size cur.pos :=
        fun b' hb' => List.forall_mem_cons.mpr ⟨countableBranches_iff.mp first b' hb', behind⟩
      refine ⟨each b (by simp), fun frame hframe => ?_⟩
      rcases List.mem_append.mp hframe with hframe | hframe
      · obtain ⟨b', hb', rfl⟩ := List.mem_map.mp hframe
        exact each b' (by simp [hb'])
      · exact frames frame hframe

theorem execute_guard (hcur : (Cursor.ofText text).Leads cur)
    (hcont : ∀ goal ∈ cont, goal.Proper) (hstack : ∀ frame ∈ stack, frame.Proper text)
    {g : Guard} {rep : Repeat} {label : String} {rest : List Term} (hg : g.plain = true)
    (hrest : plainBranch rest = true) :
    Counted (rep.longest text.size < words)
      (Executes text (.chain (.guard g rep label :: rest)) cur cont stack)
      (execute (.chain (.guard g rep label :: rest)) cur cont stack) := by
  refine (guardRun_ends rep hg hcur).bind ?_
  rintro found _ ⟨inside, all⟩
  have onward : ∀ goal ∈ Goal.chain rest :: cont, goal.Proper :=
    List.forall_mem_cons.mpr ⟨hrest, hcont⟩
  have completes : Completes text (.chain (.guard g rep label :: rest) :: cont) cur.pos ↔
      ∃ c ∈ ends found, Completes text (.chain rest :: cont) c.pos := by
    rw [completes_guard]
    constructor
    · rintro ⟨q, hq, hc⟩
      obtain ⟨c, hmem, rfl⟩ := (all q).mpr hq
      exact ⟨c, hmem, hc⟩
    · rintro ⟨c, hmem, hc⟩
      exact ⟨c.pos, (all c.pos).mp ⟨c, hmem, rfl⟩, hc⟩
  have behind : ∀ c ∈ ends found, cur.pos ≤ c.pos := by
    intro c hc
    obtain ⟨k, _, hp⟩ := (all c.pos).mp ⟨c, hc, rfl⟩
    exact hp.le fun _ _ => Guard.Spans.le
  have fits : (∀ goal ∈ Goal.chain (.guard g rep label :: rest) :: cont,
      goal.Fits text.size cur.pos) → ∀ c ∈ ends found, ∀ goal ∈ Goal.chain rest :: cont,
        goal.Fits text.size c.pos := by
    intro goals c hc
    obtain ⟨first, later⟩ := List.forall_mem_cons.mp goals
    simp only [Goal.Fits, countableBranch, Bool.and_eq_true] at first
    exact List.forall_mem_cons.mpr
      ⟨first.2, fun goal hgoal => (later goal hgoal).later (behind c hc)⟩
  cases found with
  | none =>
    refine .of_ok ⟨hstack, ?_, fun fits => fits.2⟩
    simp [Config.Completes, completes, ends]
  | some run =>
    refine .of_ok ⟨⟨inside _ (by simp [ends]), onward, ?_⟩, ?_, ?_⟩
    · intro frame hframe
      split at hframe
      · exact hstack frame hframe
      · rcases List.mem_cons.mp hframe with rfl | hframe
        · exact ⟨fun c hc => inside c (List.mem_cons_of_mem _ hc), hrest, hcont⟩
        · exact hstack frame hframe
    · simp only [Config.Completes, completes, ends, List.mem_cons, or_and_right, exists_or,
        exists_eq_left, or_assoc]
      split
      · next short => simp [List.isEmpty_iff.mp short]
      · simp only [List.mem_cons, or_and_right, exists_or, exists_eq_left, Frame.Completes]
    · rintro ⟨goals, frames⟩
      refine ⟨fits goals _ (by simp [ends]), ?_⟩
      split
      · exact frames
      · exact List.forall_mem_cons.mpr
          ⟨fun c hc => fits goals c (List.mem_cons_of_mem _ hc), frames⟩

theorem execute_again (hcur : (Cursor.ofText text).Leads cur)
    (hcont : ∀ goal ∈ cont, goal.Proper) (hstack : ∀ frame ∈ stack, frame.Proper text)
    {body : List Branch} {rep : Repeat} {rest : List Term} {count : Nat}
    (hp : (Goal.again body rep rest count).Proper) :
    ∃ d, execute (.again body rep rest count) cur cont stack = .ok d ∧
      Executes text (.again body rep rest count) cur cont stack d := by
  obtain ⟨hbody, hrest, bound⟩ := hp
  have onward : ∀ goal ∈ Goal.chain rest :: cont, goal.Proper :=
    List.forall_mem_cons.mpr ⟨hrest, hcont⟩
  have left : (∀ goal ∈ Goal.again body rep rest count :: cont, goal.Fits text.size cur.pos) →
      ∀ goal ∈ Goal.chain rest :: cont, goal.Fits text.size cur.pos := by
    intro goals
    obtain ⟨⟨_, hrest, _⟩, later⟩ := List.forall_mem_cons.mp goals
    exact List.forall_mem_cons.mpr ⟨hrest, later⟩
  by_cases more : rep.allowsMore count = true
  · refine ⟨.search cur (.branches body :: .iterated body rep rest count cur.pos :: cont)
      (if rep.min ≤ count then .resume cur (.chain rest :: cont) :: stack else stack),
      by simp [execute, more], ⟨hcur, ?_, ?_⟩, ?_, ?_⟩
    · have again : (Goal.iterated body rep rest count cur.pos).Proper :=
        ⟨hbody, hrest, Repeat.allowsMore_iff.mp more⟩
      exact List.forall_mem_cons.mpr ⟨hbody, List.forall_mem_cons.mpr ⟨again, hcont⟩⟩
    · intro frame hframe
      split at hframe
      · rcases List.mem_cons.mp hframe with rfl | hframe
        · exact ⟨hcur, onward⟩
        · exact hstack frame hframe
      · exact hstack frame hframe
    · simp only [Config.Completes, completes_again_more more]
      split
      · next least =>
        simp only [least, true_and, List.mem_cons, or_and_right, exists_or, exists_eq_left,
          Frame.Completes]
        rw [or_assoc, or_left_comm]
      · next few => simp only [few, false_and, false_or]
    · rintro ⟨goals, frames⟩
      obtain ⟨again, later⟩ := List.forall_mem_cons.mp goals
      refine ⟨List.forall_mem_cons.mpr
        ⟨again.1, List.forall_mem_cons.mpr ⟨again.entered more, later⟩⟩, ?_⟩
      split
      · exact List.forall_mem_cons.mpr ⟨left goals, frames⟩
      · exact frames
  · by_cases few : count < rep.min
    · refine ⟨.failed stack, by simp [execute, more, few], hstack, ?_, fun fits => fits.2⟩
      simp [Config.Completes, completes_again_done bound more, Nat.not_le.mpr few]
    · refine ⟨.search cur (.chain rest :: cont) stack, by simp [execute, more, few],
        ⟨hcur, onward, hstack⟩, ?_, fun fits => ⟨left fits.1, fits.2⟩⟩
      simp only [Config.Completes, completes_again_done bound more, Nat.not_lt.mp few, true_and]

theorem execute_iterated (hcur : (Cursor.ofText text).Leads cur)
    (hcont : ∀ goal ∈ cont, goal.Proper) (hstack : ∀ frame ∈ stack, frame.Proper text)
    {body : List Branch} {rep : Repeat} {rest : List Term} {count entered : Nat}
    (hp : (Goal.iterated body rep rest count entered).Proper) :
    Counted ((Goal.iterated body rep rest count entered).Fits text.size cur.pos)
      (Executes text (.iterated body rep rest count entered) cur cont stack)
      (execute (.iterated body rep rest count entered) cur cont stack) := by
  by_cases idle : rep.min ≤ count ∧ cur.pos = entered
  · rw [execute, if_pos idle]
    refine .of_ok ⟨hstack, ?_, fun fits => fits.2⟩
    simp [Config.Completes, Completes, Goal.Spans, idle]
  · rw [execute, if_neg idle]
    split
    · refine .of_ok ⟨⟨hcur, List.forall_mem_cons.mpr ⟨hp, hcont⟩, hstack⟩, ?_, ?_⟩
      · simp only [Config.Completes, Completes, Goal.Spans, idle, not_false_eq_true, true_and]
      · rintro ⟨goals, frames⟩
        obtain ⟨first, later⟩ := List.forall_mem_cons.mp goals
        exact ⟨List.forall_mem_cons.mpr ⟨first.counted idle, later⟩, frames⟩
    · next full =>
      refine .inr ⟨rfl, fun fits => full ?_⟩
      obtain ⟨_, _, room, counted⟩ := fits.counted idle
      exact Nat.lt_of_le_of_lt (Nat.le_trans counted (Repeat.most_mono hcur.pos_le)) room

/-- **No goal changes what can be completed.** It is executed to a configuration that completes
just when the goal and what stands behind it could, or a frame. -/
theorem execute_completes (hcur : (Cursor.ofText text).Leads cur)
    (hcont : ∀ goal ∈ cont, goal.Proper) (hstack : ∀ frame ∈ stack, frame.Proper text) {goal : Goal}
    (hp : goal.Proper) :
    Counted (goal.Fits text.size cur.pos) (Executes text goal cur cont stack)
      (execute goal cur cont stack) := by
  cases goal with
  | branches bs => exact .inl (execute_branches hcur hcont hstack hp)
  | again body rep rest count => exact .inl (execute_again hcur hcont hstack hp)
  | iterated body rep rest count entered => exact execute_iterated hcur hcont hstack hp
  | chain ts =>
    cases ts with
    | nil =>
      refine .of_ok ⟨⟨hcur, hcont, hstack⟩, ?_, fun fits => ⟨?_, fits.2⟩⟩
      · simp [Config.Completes, Completes, Goal.Spans, spansBranch]
      · exact (List.forall_mem_cons.mp fits.1).2
    | cons t rest =>
      simp only [Goal.Proper, plainBranch, Bool.and_eq_true] at hp
      cases t with
      | guard g rep label =>
        refine (execute_guard hcur hcont hstack hp.1 hp.2).imp (fun fits => ?_) fun _ => id
        simp only [Goal.Fits, countableBranch, Term.countable, Bool.and_eq_true] at fits
        exact of_decide_eq_true fits.1
      | group body inner rep label =>
        refine .of_ok ⟨⟨hcur, ?_, hstack⟩, ?_, ?_⟩
        · exact List.forall_mem_cons.mpr ⟨⟨hp.1, hp.2, fun _ _ => Nat.zero_le _⟩, hcont⟩
        · simp only [Config.Completes, completes_group]
        · rintro ⟨goals, frames⟩
          obtain ⟨first, later⟩ := List.forall_mem_cons.mp goals
          simp only [Goal.Fits, countableBranch, Term.countable, Bool.and_eq_true] at first
          have again : (Goal.again body rep rest 0).Fits text.size cur.pos :=
            ⟨first.1.2, first.2, of_decide_eq_true first.1.1, Nat.zero_le _⟩
          exact ⟨List.forall_mem_cons.mpr ⟨again, later⟩, frames⟩

/-- What an outcome says of the configuration it came from. -/
def Settles (text : Array Char) (c : Config) : Outcome → Prop
  | .next d => d.Proper text ∧ (c.Completes text ↔ d.Completes text) ∧
      (c.Fits text.size → d.Fits text.size)
  | .found => c.Completes text
  | .lost => ¬ c.Completes text

/-- **A step changes nothing that matters**: unless a count leaves its word, it has an outcome, and
the outcome says of the configuration what is so. -/
theorem step_settles {c : Config} (h : c.Proper text) :
    Counted (c.Fits text.size) (Settles text c) (step c) := by
  cases c with
  | search cur cont stack =>
    obtain ⟨hcur, hcont, hstack⟩ := h
    cases cont with
    | nil =>
      refine .of_ok ?_
      cases he : cur.isEof with
      | true => exact .inl (hcur.isEof_iff.mp he)
      | false =>
        have short : cur.pos ≠ text.size := fun last => by simp [hcur.isEof_iff.mpr last] at he
        refine ⟨hstack, ?_, fun fits => fits.2⟩
        simp [Config.Completes, Completes, short]
    | cons goal cont =>
      obtain ⟨hgoal, hcont⟩ := List.forall_mem_cons.mp hcont
      refine ((execute_completes hcur hcont hstack hgoal).imp
        (fun fits : (Config.search cur (goal :: cont) stack).Fits text.size =>
          fits.1 goal List.mem_cons_self) fun _ => id).bind ?_
      rintro d _ ⟨proper, same, fits⟩
      exact .of_ok ⟨proper, same, fits⟩
  | failed stack =>
    cases stack with
    | nil => exact .of_ok (by simp [Settles, Config.Completes])
    | cons frame stack =>
      obtain ⟨hframe, hstack⟩ := List.forall_mem_cons.mp h
      cases frame with
      | resume cur cont =>
        refine .of_ok ⟨⟨hframe.1, hframe.2, hstack⟩, ?_, List.forall_mem_cons.mp⟩
        simp [Config.Completes, Frame.Completes]
      | shrink rest runs cont =>
        obtain ⟨inside, hrest, hcont⟩ := hframe
        cases runs with
        | nil =>
          refine .of_ok ⟨hstack, ?_, fun fits => (List.forall_mem_cons.mp fits).2⟩
          simp [Config.Completes, Frame.Completes]
        | cons cur runs =>
          obtain ⟨hcur, inside⟩ := List.forall_mem_cons.mp inside
          refine .of_ok ⟨⟨hcur, List.forall_mem_cons.mpr ⟨hrest, hcont⟩, ?_⟩, ?_, ?_⟩
          · split
            · exact hstack
            · exact List.forall_mem_cons.mpr ⟨⟨inside, hrest, hcont⟩, hstack⟩
          · simp only [Config.Completes, Frame.Completes, List.mem_cons, or_and_right, exists_or,
              exists_eq_left, or_assoc]
            split
            · next short => simp [List.isEmpty_iff.mp short]
            · simp only [List.mem_cons, or_and_right, exists_or, exists_eq_left]
          · intro fits
            obtain ⟨frame, frames⟩ := List.forall_mem_cons.mp fits
            obtain ⟨here, later⟩ := List.forall_mem_cons.mp frame
            refine ⟨here, ?_⟩
            split
            · exact frames
            · exact List.forall_mem_cons.mpr ⟨later, frames⟩

/-- A run from a configuration finds a match when the configuration completes. -/
theorem run_completes (c : Halting) (h : c.1.Proper text) :
    Counted (c.1.Fits text.size) (fun found => found = true ↔ c.1.Completes text) (run c) := by
  induction c using wellFounded_steps.induction with
  | _ c ih =>
    have settles := step_settles h
    unfold run
    split
    · next f hf =>
      obtain ⟨_, ho, _⟩ | ⟨ho, left⟩ := settles
      · rw [ho] at hf; cases hf
      · rw [ho] at hf; cases hf; exact .inr ⟨rfl, left⟩
    · next hf => exact .of_ok (iff_of_true rfl (settles.holds hf))
    · next hf => exact .of_ok (iff_of_false (by decide) (settles.holds hf))
    · next d hf =>
      obtain ⟨proper, same, fits⟩ := settles.holds hf
      exact (ih ⟨d, c.2.inv hf⟩ hf proper).imp fits fun _ found => found.trans same.symm

theorem initial_proper {p : Pattern} (hp : p.plain = true) (text : Array Char) :
    (initial p text).Proper text :=
  ⟨.refl _, List.forall_mem_singleton.mpr hp, List.forall_mem_nil _⟩

theorem initial_fits {p : Pattern} {text : Array Char} :
    (initial p text).Fits text.size ↔ p.countable text.size = true := by
  simp [initial, Config.Fits, Goal.Fits, Pattern.countable]

end

/-- The run on a plain pattern finds a match when the pattern spans the text, or cannot be
counted. -/
theorem run_initial {p : Pattern} (hp : p.plain = true) (text : Array Char) :
    (∃ found, run ⟨_, halts_initial p text⟩ = .ok found ∧
      (found = true ↔ p.Spans Repeat.Allows text 0 text.size)) ∨
    (run ⟨_, halts_initial p text⟩ = .error .count ∧ p.countable text.size = false) := by
  rcases run_completes ⟨_, halts_initial p text⟩ (initial_proper hp text) with
    ⟨found, hr, same⟩ | ⟨he, left⟩
  · refine .inl ⟨found, hr, same.trans ?_⟩
    simp [initial, Config.Completes, Completes, Goal.Spans, Cursor.ofText, Pattern.Spans]
  · rw [initial_fits, Bool.not_eq_true] at left
    exact .inr ⟨he, left⟩

end Backtrack

/-- **Backtracking decides what the pattern spans.** On every plain pattern and every text it comes
to a verdict, and finds a match just when the pattern leads from the beginning of the text to its
end; unless a count of repetitions leaves its word, which none does on a pattern that is countable
to the size of the text. -/
theorem backtracking_decides_spans {p : Pattern} (hp : p.plain = true) (text : Array Char) :
    (∃ found, p.isMatch text = .ok found ∧
      (found = true ↔ p.Spans Repeat.Allows text 0 text.size)) ∨
    (p.isMatch text = .error .count ∧ p.countable text.size = false) :=
  Backtrack.run_initial hp text

/-- `((a|\b)*){2,}$`, whose repeated groups can all be crossed in place. -/
def idleLoops : Pattern :=
  let a : Term := .guard (.item ⟨.literal 'a', "a"⟩) .once "a"
  let edge : Term := .guard (.item ⟨.assertion .boundary, "\\b"⟩) .once "\\b"
  let last : Term := .guard (.item ⟨.assertion .lineEnd, "$"⟩) .once "$"
  let inner : Term := .group [[a], [edge]] "a|\\b" ⟨0, none⟩ "(a|\\b)*"
  ⟨[[.group [[inner]] "(a|\\b)*" ⟨2, none⟩ "((a|\\b)*){2,}$", last]], "((a|\\b)*){2,}$"⟩

theorem backtracking_decides_idle_loops : idleLoops.plain = true ∧
    ∃ found, idleLoops.isMatch #['a', 'a'] = .ok found ∧
      (found = true ↔ idleLoops.Spans Repeat.Allows #['a', 'a'] 0 2) := by
  have plain : idleLoops.plain = true := by decide
  refine ⟨plain, ?_⟩
  rcases backtracking_decides_spans plain #['a', 'a'] with decided | ⟨_, left⟩
  · exact decided
  · exact absurd left (by decide)

end WholeMatch
