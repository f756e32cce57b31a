import Mathlib.Tactic.ByContra
import WholeMatch.Backtrack.Search
import WholeMatch.Proofs.Spans

namespace WholeMatch

/-- How many repetitions of a guard a run can come to on a text of that size: a guard that reads is
repeated once for each character at most, and one that holds in place as often as it must be. -/
def Repeat.longest (rep : Repeat) (size : Nat) : Nat := rep.max.getD (Nat.max rep.min size)

/-- How many iterations of a group can be done up to a place: as many as must be, even in place,
and one for each character. -/
def Repeat.most (rep : Repeat) (place : Nat) : Nat := rep.max.getD (rep.min + place)

mutual

/-- On a text of that size no count of repetitions can leave its word. -/
def Term.countable (size : Nat) : Term → Bool
  | .guard _ rep _ => rep.longest size < words
  | .group branches _ rep _ => rep.most size < words && countableBranches size branches

def countableBranch (size : Nat) : List Term → Bool
  | [] => true
  | t :: ts => t.countable size && countableBranch size ts

def countableBranches (size : Nat) : List (List Term) → Bool
  | [] => true
  | b :: bs => countableBranch size b && countableBranches size bs

end

/-- On a text of that size no count of repetitions can leave its word: a bound is a word, and where
there is none, the least number of iterations of a group and the size together make one. -/
def Pattern.countable (p : Pattern) (size : Nat) : Bool := countableBranches size p.branches

theorem countableBranches_iff {size : Nat} {bs : List Branch} :
    countableBranches size bs = true ↔ ∀ b ∈ bs, countableBranch size b = true := by
  induction bs with
  | nil => simp [countableBranches]
  | cons b bs ih => simp [countableBranches, ih]

namespace Backtrack

/-- An answer of which `P` holds, or else a count that left its word, which it does not do where
it `fits`. -/
def Counted {α : Type} (fits : Prop) (P : α → Prop) (x : Except Fault α) : Prop :=
  (∃ a, x = .ok a ∧ P a) ∨ (x = .error .count ∧ ¬ fits)

namespace Counted

variable {α β : Type} {fits fits' : Prop} {P : α → Prop} {Q : β → Prop} {x : Except Fault α}

theorem of_ok {a : α} (h : P a) : Counted fits P (.ok a) := .inl ⟨a, rfl, h⟩

theorem answers (h : Counted fits P x) (hf : fits) : ∃ a, x = .ok a ∧ P a :=
  h.resolve_right fun ⟨_, left⟩ => left hf

theorem holds (h : Counted fits P x) {a : α} (ha : x = .ok a) : P a := by
  rcases h with ⟨b, hb, hP⟩ | ⟨he, _⟩
  · rw [ha] at hb
    cases hb
    exact hP
  · rw [ha] at he
    cases he

theorem imp {Q : α → Prop} (h : Counted fits P x) (hf : fits' → fits) (hQ : ∀ a, P a → Q a) :
    Counted fits' Q x := by
  rcases h with ⟨a, ha, hP⟩ | ⟨he, left⟩
  · exact .inl ⟨a, ha, hQ a hP⟩
  · exact .inr ⟨he, fun fits => left (hf fits)⟩

theorem bind {f : α → Except Fault β} (h : Counted fits P x)
    (hf : ∀ a, x = .ok a → P a → Counted fits Q (f a)) : Counted fits Q (x >>= f) := by
  rcases h with ⟨a, ha, hP⟩ | ⟨he, left⟩
  · rw [ha]
    exact hf a ha hP
  · rw [he]
    exact .inr ⟨rfl, left⟩

end Counted

theorem nothing_left {rep : Repeat} {count k : Nat} (done : ¬ rep.allowsMore count = true)
    (allowed : rep.Allows (count + k)) : k = 0 := by
  rw [Repeat.allowsMore_iff] at done
  by_contra more
  exact done fun m hm => by have := allowed.2 m hm; omega

theorem extendRun_stop {g : Guard} {rep : Repeat} {count : Nat} {cur : Cursor}
    {visited : List Cursor} (stop : ¬ rep.allowsMore count = true) :
    extendRun g rep count cur visited = endRun rep count cur visited := by
  rw [extendRun, if_pos (by simp [stop])]

/-- A run that is not stopped by its bound asks the guard once more. -/
theorem extendRun_more {g : Guard} {rep : Repeat} {count : Nat} {cur next : Cursor}
    {visited : List Cursor} {hit : Bool} (more : rep.allowsMore count = true)
    (ha : g.attempt cur = .ok (hit, next)) :
    extendRun g rep count cur visited =
      if hit = false ∨ next.pos = cur.pos ∧ rep.min ≤ count then endRun rep count cur visited
      else if count + 1 < words then extendRun g rep (count + 1) next (cur :: visited)
      else .error .count := by
  rw [extendRun, if_neg (by simp [more]), ha, ok_bind]
  simp only [Bool.or_eq_true, Bool.not_eq_true', decide_eq_true_eq]

/-- Where a run can be left, the longest first. -/
def ends : Option Run → List Cursor
  | none => []
  | some run => run.longest :: run.shorter

/-- A run that has visited a place for each repetition can leave out the earliest of them. -/
theorem endRun_ends (rep : Repeat) (cur : Cursor) {count : Nat} {visited : List Cursor}
    (counted : visited.length = count) : ∃ found, endRun rep count cur visited = .ok found ∧
      ends found = if count < rep.min then [] else cur :: visited.take (count - rep.min) := by
  unfold endRun
  split
  · exact ⟨none, rfl, rfl⟩
  · next many =>
    refine ⟨some ⟨cur, visited.take (count - rep.min)⟩, ?_, rfl⟩
    rw [dropEarliest, if_pos (by omega), counted]
    rfl

section
variable {text : Array Char} {g : Guard} {rep : Repeat}

/-- What further repetitions of a guard lead to, after `count` of them. -/
def SpansMore (text : Array Char) (g : Guard) (rep : Repeat) (count i j : Nat) : Prop :=
  ∃ k, rep.Allows (count + k) ∧ Power (g.Spans text) k i j

theorem spansMore_stop {count i j : Nat} (bound : ∀ m, rep.max = some m → count ≤ m)
    (stop : ¬ rep.allowsMore count = true) :
    SpansMore text g rep count i j ↔ rep.min ≤ count ∧ j = i := by
  constructor
  · rintro ⟨k, allowed, hp⟩
    have := nothing_left stop allowed
    subst this
    cases hp
    exact ⟨allowed.1, rfl⟩
  · rintro ⟨least, rfl⟩
    exact ⟨0, ⟨least, fun m hm => bound m hm⟩, rfl⟩

theorem spansMore_miss {count i j : Nat} (bound : ∀ m, rep.max = some m → count ≤ m)
    (miss : ∀ q, ¬ g.Spans text i q) :
    SpansMore text g rep count i j ↔ rep.min ≤ count ∧ j = i := by
  constructor
  · rintro ⟨k, allowed, hp⟩
    cases k with
    | zero => cases hp; exact ⟨allowed.1, rfl⟩
    | succ k => obtain ⟨q, hq, _⟩ := hp; exact absurd hq (miss q)
  · rintro ⟨least, rfl⟩
    exact ⟨0, ⟨least, fun m hm => bound m hm⟩, rfl⟩

/-- The guard leads on from the cursor, to one place only. -/
theorem spansMore_next {count i p j : Nat} (bound : ∀ m, rep.max = some m → count + 1 ≤ m)
    (h : ∀ q, g.Spans text i q ↔ q = p) : SpansMore text g rep count i j ↔
      rep.min ≤ count ∧ j = i ∨ SpansMore text g rep (count + 1) p j := by
  constructor
  · rintro ⟨k, allowed, hp⟩
    cases k with
    | zero => cases hp; exact .inl ⟨allowed.1, rfl⟩
    | succ k =>
      obtain ⟨q, hq, hp⟩ := hp
      rw [(h q).mp hq] at hp
      have counted : count + (k + 1) = count + 1 + k := by omega
      exact .inr ⟨k, counted ▸ allowed, hp⟩
  · rintro (⟨least, rfl⟩ | ⟨k, allowed, hp⟩)
    · exact ⟨0, ⟨least, fun m hm => by have := bound m hm; omega⟩, rfl⟩
    · have counted : count + (k + 1) = count + 1 + k := by omega
      exact ⟨k + 1, counted ▸ allowed, p, (h p).mpr rfl, hp⟩

/-- A guard that holds in place leads nowhere else, however often it is repeated. -/
theorem spansMore_in_place {count i j : Nat} (bound : ∀ m, rep.max = some m → count ≤ m)
    (least : rep.min ≤ count) (idle : ∀ q, g.Spans text i q → q = i) :
    SpansMore text g rep count i j ↔ rep.min ≤ count ∧ j = i := by
  have stays : ∀ k, Power (g.Spans text) k i j → j = i := by
    intro k hp
    induction k with
    | zero => exact hp.symm
    | succ k ih =>
      obtain ⟨q, hq, hp⟩ := hp
      rw [idle q hq] at hp
      exact ih hp
  constructor
  · rintro ⟨k, _, hp⟩
    exact ⟨least, stays k hp⟩
  · rintro ⟨_, rfl⟩
    exact ⟨0, ⟨least, fun m hm => bound m hm⟩, rfl⟩

/-- The ends of a run: the places it has visited after enough repetitions, and what further
repetitions lead to from its cursor. -/
def EndsAt (text : Array Char) (g : Guard) (rep : Repeat) (count : Nat) (cur : Cursor)
    (visited : List Cursor) (found : Option Run) : Prop :=
  (∀ c ∈ ends found, (Cursor.ofText text).Leads c) ∧
    ∀ q, (∃ c ∈ ends found, c.pos = q) ↔
      (∃ c ∈ visited.take (count - rep.min), c.pos = q) ∨ SpansMore text g rep count cur.pos q

theorem endRun_endsAt {fits : Prop} {count : Nat} {cur : Cursor} {visited : List Cursor}
    (hcur : (Cursor.ofText text).Leads cur) (hvisited : ∀ c ∈ visited, (Cursor.ofText text).Leads c)
    (counted : visited.length = count)
    (here : ∀ q, SpansMore text g rep count cur.pos q ↔ rep.min ≤ count ∧ q = cur.pos) :
    Counted fits (EndsAt text g rep count cur visited) (endRun rep count cur visited) := by
  obtain ⟨found, hf, all⟩ := endRun_ends rep cur counted
  rw [hf]
  refine .of_ok ?_
  unfold EndsAt
  rw [all]
  split
  · next few =>
    simp [here, show count - rep.min = 0 by omega, Nat.not_le.mpr few]
  · next many =>
    refine ⟨fun c hc => ?_, fun q => ?_⟩
    · rcases List.mem_cons.mp hc with rfl | hc
      · exact hcur
      · exact hvisited c (List.mem_of_mem_take hc)
    · simp only [List.mem_cons, exists_eq_or_imp, here, Nat.not_lt.mp many, true_and]
      rw [Or.comm, eq_comm]

/-- Where a guard is satisfied and the run goes on, there is room to count it. A guard that reads
has read a character for each repetition so far. -/
theorem count_lt_longest {count q : Nat} {cur : Cursor} (more : rep.allowsMore count = true)
    (spans : g.Spans text cur.pos q) (moved : ¬(q = cur.pos ∧ rep.min ≤ count))
    (apart : g.zeroWidth = false → count ≤ cur.pos) : count < rep.longest text.size := by
  cases hm : rep.max with
  | some m =>
    rw [Repeat.longest, hm]
    exact Repeat.allowsMore_iff.mp more m hm
  | none =>
    have width := spans.end_eq
    have inside := spans.inside
    rw [Repeat.longest, hm, Option.getD_none]
    cases hw : g.zeroWidth with
    | true =>
      rw [hw, if_pos rfl] at width
      exact Nat.lt_of_lt_of_le (by omega) (Nat.le_max_left _ _)
    | false =>
      rw [hw, if_neg (by decide)] at width
      have := apart hw
      exact Nat.lt_of_lt_of_le (by omega) (Nat.le_max_right _ _)

/-- A run, gone on with after `count` repetitions, with a place visited for each of them. -/
theorem extendRun_endsAt (hg : g.plain = true) (count : Nat) (cur : Cursor)
    (visited : List Cursor) : (Cursor.ofText text).Leads cur →
    (∀ c ∈ visited, (Cursor.ofText text).Leads c) → visited.length = count →
    (∀ m, rep.max = some m → count ≤ m) → (g.zeroWidth = false → count ≤ cur.pos) →
    Counted (rep.longest text.size < words) (EndsAt text g rep count cur visited)
      (extendRun g rep count cur visited) := by
  induction count, cur, visited using extendRun.induct rep with
  | case1 count cur visited stop =>
    intro hcur hvisited counted bound _
    have stop : ¬ rep.allowsMore count = true := by simpa using stop
    rw [extendRun_stop stop]
    exact endRun_endsAt hcur hvisited counted fun q => spansMore_stop bound stop
  | case2 count cur visited more ih =>
    intro hcur hvisited counted bound apart
    have more : rep.allowsMore count = true := by simpa using more
    obtain ⟨hit, next, ha, hnext, spans⟩ := Guard.attempt_spans hg hcur
    have bound' : ∀ m, rep.max = some m → count + 1 ≤ m := Repeat.allowsMore_iff.mp more
    rw [extendRun_more more ha]
    cases hit with
    | false =>
      rw [if_pos (.inl rfl)]
      exact endRun_endsAt hcur hvisited counted fun q =>
        spansMore_miss bound fun q hq => by simpa using (spans q).mp hq
    | true =>
      simp only [true_and] at spans
      have holds : g.Spans text cur.pos next.pos := (spans next.pos).mpr rfl
      by_cases idle : next.pos = cur.pos ∧ rep.min ≤ count
      · rw [if_pos (.inr idle)]
        refine endRun_endsAt hcur hvisited counted fun q =>
          spansMore_in_place bound idle.2 fun q hq => ?_
        rw [(spans q).mp hq, idle.1]
      · rw [if_neg (by simp [idle])]
        split
        · next room =>
          have apart' : g.zeroWidth = false → count + 1 ≤ next.pos := by
            intro width
            have read := holds.end_eq
            rw [width, if_neg (by decide)] at read
            have := apart width
            omega
          refine (ih next room hnext (List.forall_mem_cons.mpr ⟨hcur, hvisited⟩)
            (by rw [List.length_cons, counted]) bound' apart').imp id ?_
          rintro found ⟨inside, all⟩
          refine ⟨inside, fun q => ?_⟩
          rw [all, spansMore_next bound' spans]
          by_cases many : rep.min ≤ count
          · rw [show count + 1 - rep.min = count - rep.min + 1 by omega, List.take_succ_cons]
            simp only [List.mem_cons, exists_eq_or_imp, many, true_and]
            rw [or_assoc, or_left_comm, eq_comm (a := q)]
          · simp [many, show count + 1 - rep.min = 0 by omega, show count - rep.min = 0 by omega]
        · next full =>
          have room := count_lt_longest more holds idle apart
          exact .inr ⟨rfl, fun fits => full (Nat.lt_of_le_of_lt room fits)⟩

/-- **A run of a guard ends where the repeated guard leads.** -/
theorem guardRun_ends (rep : Repeat) (hg : g.plain = true) {cur : Cursor}
    (hcur : (Cursor.ofText text).Leads cur) :
    Counted (rep.longest text.size < words) (fun found =>
      (∀ c ∈ ends found, (Cursor.ofText text).Leads c) ∧
        ∀ q, (∃ c ∈ ends found, c.pos = q) ↔
          ∃ k, rep.Allows k ∧ Power (g.Spans text) k cur.pos q) (guardRun g rep cur) := by
  refine (extendRun_endsAt hg 0 cur [] hcur (by simp) rfl (fun _ _ => Nat.zero_le _)
    fun _ => Nat.zero_le _).imp id ?_
  rintro found ⟨inside, all⟩
  refine ⟨inside, fun q => ?_⟩
  rw [all]
  simp [SpansMore]

end

end Backtrack

end WholeMatch
