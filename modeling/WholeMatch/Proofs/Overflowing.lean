import Mathlib.Logic.Relation
import WholeMatch.Proofs.GuardRuns

namespace WholeMatch

namespace Backtrack

variable {c d : Config}

/-- The machine comes from `c` to a count that leaves its word. -/
def Overflows (c : Config) : Prop :=
  ∃ d, Relation.ReflTransGen Steps c d ∧ step d = .error .count

theorem Overflows.of_chain (hd : Overflows d) (h : Relation.ReflTransGen Steps c d) :
    Overflows c := by
  obtain ⟨e, run, stop⟩ := hd
  exact ⟨e, h.trans run, stop⟩

section
variable {body : List Branch} {rep : Repeat} {rest : List Term} {count entered : Nat}
  {cur : Cursor} {cont : List Goal} {stack : List Frame}

theorem steps_iterated (moved : ¬ (rep.min ≤ count ∧ cur.pos = entered))
    (room : count + 1 < words) :
    Steps (.search cur (.iterated body rep rest count entered :: cont) stack)
      (.search cur (.again body rep rest (count + 1) :: cont) stack) := by
  rw [Steps, step, execute, if_neg moved, if_pos room]
  rfl

theorem step_iterated_full (moved : ¬ (rep.min ≤ count ∧ cur.pos = entered))
    (full : words ≤ count + 1) :
    step (.search cur (.iterated body rep rest count entered :: cont) stack) = .error .count := by
  rw [step, execute, if_neg moved, if_neg (Nat.not_lt.mpr full)]
  rfl

/-- From wherever a loop stands, the machine comes to the end of an iteration that is not in vain,
and is in the loop again when that is counted. -/
def ComesRound (body : List Branch) (rep : Repeat) (loop : Nat → Config → Prop) : Prop :=
  ∀ count c, count < words → loop count c → ∃ cur entered stack,
    Relation.ReflTransGen Steps c (.search cur [.iterated body rep [] count entered] stack) ∧
    ¬ (rep.min ≤ count ∧ cur.pos = entered) ∧
    loop (count + 1) (.search cur [.again body rep [] (count + 1)] stack)

/-- A loop that always comes round again comes to count too many. -/
theorem Overflows.of_rounds {loop : Nat → Config → Prop} (rounds : ComesRound body rep loop)
    (left : Nat) : ∀ {count : Nat} {c : Config}, count + left + 1 = words → loop count c →
      Overflows c := by
  induction left with
  | zero =>
    intro count c full h
    obtain ⟨cur, entered, stack, run, moved, _⟩ := rounds count c (by omega) h
    exact ⟨_, run, step_iterated_full moved (Nat.le_of_eq full.symm)⟩
  | succ left ih =>
    intro count c few h
    obtain ⟨cur, entered, stack, run, moved, next⟩ := rounds count c (by omega) h
    exact (ih (by omega) next).of_chain (run.tail (steps_iterated moved (by omega)))

end

/-- A run of the machine that comes to a count too many comes to no verdict. -/
theorem Overflows.run_eq (h : Overflows c) (hc : Halts c) : run ⟨c, hc⟩ = .error .count := by
  obtain ⟨e, chain, stop⟩ := h
  induction chain using Relation.ReflTransGen.head_induction_on with
  | refl =>
    unfold run
    split
    · next hf => rw [stop] at hf; cases hf; rfl
    all_goals next hf => rw [stop] at hf; cases hf
  | head first _ ih =>
    unfold run
    split
    · next hf => rw [first] at hf; cases hf
    · next hf => rw [first] at hf; cases hf
    · next hf => rw [first] at hf; cases hf
    · next hf => rw [first] at hf; cases hf; exact ih _

theorem guardRun_once {g : Guard} {cur next : Cursor} {hit : Bool}
    (ha : g.attempt cur = .ok (hit, next)) :
    guardRun g .once cur = .ok (if hit then some ⟨next, []⟩ else none) := by
  have more : Repeat.once.allowsMore 0 = true := rfl
  have stop : ¬ Repeat.once.allowsMore 1 = true := by decide
  rw [guardRun, extendRun_more more ha]
  cases hit with
  | false => rfl
  | true =>
    have room : 0 + 1 < words := by decide
    have short : ¬ Repeat.once.min ≤ 0 := by decide
    rw [if_neg (by simp [short]), if_pos room, extendRun_stop stop]
    rfl

section
variable {text : Array Char} {cur : Cursor} {g : Guard} (label : String) (rest : List Term)
  (cont : List Goal) (stack : List Frame)

theorem steps_guard_hit (hg : g.plain = true) (hcur : (Cursor.ofText text).Leads cur) {q : Nat}
    (spans : g.Spans text cur.pos q) :
    ∃ next, (Cursor.ofText text).Leads next ∧ next.pos = q ∧
      Steps (.search cur (.chain (.guard g .once label :: rest) :: cont) stack)
        (.search next (.chain rest :: cont) stack) := by
  obtain ⟨hit, next, ha, leads, all⟩ := Guard.attempt_spans hg hcur
  obtain ⟨rfl, rfl⟩ := (all q).mp spans
  refine ⟨next, leads, rfl, ?_⟩
  rw [Steps, step, execute, guardRun_once ha]
  rfl

theorem steps_guard_miss (hg : g.plain = true) (hcur : (Cursor.ofText text).Leads cur)
    (misses : ∀ q, ¬ g.Spans text cur.pos q) :
    Steps (.search cur (.chain (.guard g .once label :: rest) :: cont) stack) (.failed stack) := by
  obtain ⟨hit, next, ha, _, all⟩ := Guard.attempt_spans hg hcur
  cases hit with
  | true => exact absurd ((all next.pos).mpr ⟨rfl, rfl⟩) (misses _)
  | false =>
    rw [Steps, step, execute, guardRun_once ha]
    rfl

end

def firstPlace : Guard := .item ⟨.assertion .lineBegin, "^"⟩

def letterA : Guard := .item ⟨.literal 'a', "a"⟩

/-- `^|a`. -/
def anchoredBody : List Branch := [[.guard firstPlace .once "^"], [.guard letterA .once "a"]]

/-- `(^|a)+`, of which one iteration is done in place, and then one for each `a`. -/
def anchored : Pattern := ⟨[[.group anchoredBody "^|a" ⟨1, none⟩ "(^|a)+"]], "(^|a)+"⟩

/-- The machine stands at a place of a text of `a`, with one iteration more done than it has read
characters. -/
def Anchored (size place : Nat) (c : Config) : Prop :=
  ∃ cur stack, (Cursor.ofText (.replicate size 'a')).Leads cur ∧ cur.pos = place ∧
    c = .search cur [.again anchoredBody ⟨1, none⟩ [] (place + 1)] stack

section
variable {size place : Nat}

theorem letterA_spans (inside : place < size) :
    letterA.Spans (.replicate size 'a') place (place + 1) :=
  .reads (c := 'a') rfl (by simp [inside]) rfl

theorem firstPlace_spans (size : Nat) : firstPlace.Spans (.replicate size 'a') 0 0 :=
  .holds rfl (Nat.zero_le _) rfl

theorem firstPlace_misses (read : 0 < place) (inside : place ≤ size) (q : Nat) :
    ¬ firstPlace.Spans (.replicate size 'a') place q := by
  rintro (⟨width, _, _⟩ | ⟨asserts, _, held⟩)
  · cases width
  · cases asserts
    have before : place - 1 < size := by omega
    simp [Assertion.between, charBefore, before, Nat.pos_iff_ne_zero.mp read] at held

/-- What is left of the body when its first branch is done with. -/
def second (cur : Cursor) (count entered : Nat) (stack : List Frame) : Config :=
  .failed (.resume cur [.chain [.guard letterA .once "a"],
    .iterated anchoredBody ⟨1, none⟩ [] count entered] :: stack)

/-- At the first place the first branch leads on in place, and nowhere else. -/
theorem anchored_second {c : Config} (h : Anchored size place c) (inside : place < size) :
    ∃ cur stack, (Cursor.ofText (.replicate size 'a')).Leads cur ∧ cur.pos = place ∧
      Relation.ReflTransGen Steps c (second cur (place + 1) place stack) := by
  obtain ⟨cur, stack, hcur, rfl, rfl⟩ := h
  let cont : List Goal := [.iterated anchoredBody ⟨1, none⟩ [] (cur.pos + 1) cur.pos]
  let stack' : List Frame := .resume cur [.chain []] :: stack
  let stack'' : List Frame := .resume cur (.chain [.guard letterA .once "a"] :: cont) :: stack'
  have least : 1 ≤ cur.pos + 1 := Nat.le_add_left 1 _
  have again : Steps (.search cur [.again anchoredBody ⟨1, none⟩ [] (cur.pos + 1)] stack)
      (.search cur (.branches anchoredBody :: cont) stack') := by
    simp only [Steps, step, execute, Repeat.allowsMore, Option.all_none, if_pos least]
    rfl
  have branches : Steps (.search cur (.branches anchoredBody :: cont) stack')
      (.search cur (.chain [.guard firstPlace .once "^"] :: cont) stack'') := rfl
  refine ⟨cur, stack', hcur, rfl, .head again (.head branches ?_)⟩
  rcases Nat.eq_zero_or_pos cur.pos with first | read
  · obtain ⟨next, _, stays, holds⟩ := steps_guard_hit "^" [] cont stack'' rfl hcur
      (first ▸ firstPlace_spans size)
    have idle : Steps (.search next cont stack'') (.failed stack'') := by
      have here : 1 ≤ cur.pos + 1 ∧ next.pos = cur.pos := ⟨least, stays⟩
      simp only [Steps, step, execute, cont, if_pos here]
      rfl
    exact .head holds (.head rfl (.single idle))
  · exact .single (steps_guard_miss _ _ _ _ rfl hcur (firstPlace_misses read (Nat.le_of_lt inside)))

/-- The second branch reads on. -/
theorem second_reads {cur : Cursor} {count entered : Nat} {stack : List Frame}
    (hcur : (Cursor.ofText (.replicate size 'a')).Leads cur) (inside : cur.pos < size) :
    ∃ next, (Cursor.ofText (.replicate size 'a')).Leads next ∧ next.pos = cur.pos + 1 ∧
      Relation.ReflTransGen Steps (second cur count entered stack)
        (.search next [.iterated anchoredBody ⟨1, none⟩ [] count entered] stack) := by
  obtain ⟨next, leads, moved, reads⟩ := steps_guard_hit "a" []
    [.iterated anchoredBody ⟨1, none⟩ [] count entered] stack rfl hcur
    (letterA_spans inside)
  exact ⟨next, leads, moved, .head rfl (.head reads (.single rfl))⟩

/-- From place to place an iteration is done, while it can be counted. -/
theorem anchored_round {c : Config} (h : Anchored size place c) (inside : place < size) :
    ∃ next stack, (Cursor.ofText (.replicate size 'a')).Leads next ∧ next.pos = place + 1 ∧
      Relation.ReflTransGen Steps c
        (.search next [.iterated anchoredBody ⟨1, none⟩ [] (place + 1) place] stack) := by
  obtain ⟨cur, stack, hcur, rfl, first⟩ := anchored_second h inside
  obtain ⟨next, leads, moved, reads⟩ := second_reads hcur inside
  exact ⟨next, stack, leads, moved, first.trans reads⟩

theorem anchored_begins (size : Nat) : ∃ c, Anchored size 0 c ∧
    Relation.ReflTransGen Steps (initial anchored (.replicate size 'a')) c := by
  let cont : List Goal := [.iterated anchoredBody ⟨1, none⟩ [] 0 0]
  let stack : List Frame :=
    [.resume (.ofText (.replicate size 'a')) (.chain [.guard letterA .once "a"] :: cont)]
  obtain ⟨next, leads, stays, holds⟩ := steps_guard_hit "^" [] cont stack rfl
    (.refl _) (firstPlace_spans size)
  refine ⟨.search next [.again anchoredBody ⟨1, none⟩ [] 1] stack,
    ⟨next, stack, leads, stays, rfl⟩, ?_⟩
  exact .head rfl (.head rfl (.head rfl (.head rfl (.head holds (.head rfl (.single rfl))))))

/-- **Iterations in place are counted with those that read.** On `2 ^ 32 - 1` characters or more,
`(^|a)+` comes to an iteration that cannot be counted. -/
theorem anchored_overflows (long : words ≤ size + 1) :
    Overflows (initial anchored (.replicate size 'a')) := by
  obtain ⟨c, begun, begins⟩ := anchored_begins size
  have rounds : ComesRound anchoredBody ⟨1, none⟩
      fun count c => ∃ place, count = place + 1 ∧ Anchored size place c := by
    rintro _ c room ⟨place, rfl, h⟩
    obtain ⟨next, stack, leads, moved, run⟩ := anchored_round h (by omega)
    exact ⟨next, place, stack, run, by omega, place + 1, rfl, next, stack, leads, moved, rfl⟩
  exact (Overflows.of_rounds rounds (words - 2) rfl ⟨0, rfl, begun⟩).of_chain begins

end

end Backtrack

end WholeMatch
