import Mathlib.Data.List.Basic
import WholeMatch.Proofs.Spans

namespace WholeMatch

/-- A guard leads to one place at most. -/
def Guard.ways (text : Array Char) (g : Guard) (i : Nat) : List Nat :=
  match g with
  | .item ⟨.assertion a, _⟩ =>
    if i ≤ text.size ∧ a.between (charBefore text i) text[i]? then [i] else []
  | g => if text[i]?.any g.accepts then [i + 1] else []

/-- After `count` repetitions of a body: first what one more leads to, if there may be one more, and
then what is `onward` from here, if there are enough. Where there are enough already, one more that
leads nowhere is left out. -/
def Repeat.ways (size : Nat) (rep : Repeat) (body onward : Nat → List Nat) (count i : Nat) :
    List Nat :=
  (if rep.allowsMore count then
    (body i).flatMap fun e =>
      if rep.min ≤ count ∧ e = i then []
      -- No body leads back, or out of the text; the recursion ends for those that do not.
      else if i ≤ e ∧ e ≤ size then rep.ways size body onward (count + 1) e
      else []
  else []) ++ if rep.min ≤ count then onward i else []
termination_by (rep.min - count) + (size - i)

mutual

/-- Where one repetition of a term leads. -/
def Term.ways (text : Array Char) : Term → Nat → List Nat
  | .guard g _ _, i => g.ways text i
  | .group bs _ _ _, i => branchesWays text bs i

/-- Where the terms lead, one behind the other. -/
def branchWays (text : Array Char) : List Term → Nat → List Nat
  | [], i => [i]
  | t :: ts, i => t.rep.ways text.size (t.ways text) (branchWays text ts) 0 i

/-- Where the branches lead, one after the other. -/
def branchesWays (text : Array Char) : List (List Term) → Nat → List Nat
  | [], _ => []
  | b :: bs, i => branchWays text b i ++ branchesWays text bs i

end

section
variable {text : Array Char} {g : Guard} {i q : Nat}

/-- **A guard leads to what it spans.** -/
theorem Guard.mem_ways : q ∈ g.ways text i ↔ g.Spans text i q := by
  unfold ways
  split
  · next a label =>
    constructor
    · intro h
      split at h
      · next held =>
        rw [List.mem_singleton.mp h]
        exact .holds rfl held.1 held.2
      · cases h
    · rintro (⟨width, _, _⟩ | ⟨asserts, inside, held⟩)
      · cases width
      · cases asserts
        simp [inside, held]
  · next reads =>
    have width : g.zeroWidth = false := by
      cases g with
      | charset s => rfl
      | item i =>
        obtain ⟨test, label⟩ := i
        cases test with
        | assertion a => exact absurd rfl (reads a label)
        | literal | range | named => rfl
    constructor
    · intro h
      cases here : text[i]? with
      | none => simp [here] at h
      | some c =>
        simp only [here, Option.any_some, List.mem_ite_nil_right, List.mem_singleton] at h
        rw [h.2]
        exact .reads width here h.1
    · intro h
      cases h with
      | reads _ here accepted => simp [here, accepted]
      | holds asserts _ _ => simp [zeroWidth, Item.zeroWidth, asserts] at width

theorem Guard.ways_inside (h : q ∈ g.ways text i) : i ≤ q ∧ q ≤ text.size := by
  have spans := mem_ways.mp h
  exact ⟨spans.le, spans.inside⟩

end

/-- From no place of a text it leads back, or out of the text. -/
def LeadsOn (size : Nat) (ways : Nat → List Nat) : Prop :=
  ∀ i ≤ size, ∀ e ∈ ways i, i ≤ e ∧ e ≤ size

section
variable {size : Nat} {rep : Repeat} {body body' onward : Nat → List Nat} {count i : Nat}

/-- **Repetition**, where the body leads on. -/
theorem Repeat.ways_eq (h : ∀ e ∈ body i, i ≤ e ∧ e ≤ size) :
    rep.ways size body onward count i =
      (if rep.allowsMore count then
        (body i).flatMap fun e =>
          if rep.min ≤ count ∧ e = i then [] else rep.ways size body onward (count + 1) e
      else []) ++ if rep.min ≤ count then onward i else [] := by
  rw [ways]
  congr 2
  apply List.flatMap_congr
  intro e he
  rw [if_pos (h e he)]

/-- A repetition leads on that leads on in each of its parts. -/
theorem Repeat.ways_leads (hb : LeadsOn size body) (ho : LeadsOn size onward) {n : Nat} :
    ∀ {count i}, (rep.min - count) + (size - i) = n → i ≤ size →
      ∀ e ∈ rep.ways size body onward count i, i ≤ e ∧ e ≤ size := by
  induction n using Nat.strongRecOn with
  | ind n ih =>
    intro count i hn inside e he
    rw [ways_eq (hb i inside)] at he
    rcases List.mem_append.mp he with he | he
    · split at he
      · obtain ⟨p, hp, he⟩ := List.mem_flatMap.mp he
        obtain ⟨ahead, within⟩ := hb i inside p hp
        split at he
        · cases he
        · next moved =>
          have fewer : (rep.min - (count + 1)) + (size - p) < n := by omega
          obtain ⟨further, within'⟩ := ih _ fewer rfl within e he
          exact ⟨Nat.le_trans ahead further, within'⟩
      · cases he
    · split at he
      · exact ho i inside e he
      · cases he

/-- A body taken once leads where the body leads. -/
theorem Repeat.ways_once (h : ∀ e ∈ body i, i ≤ e ∧ e ≤ size) :
    Repeat.once.ways size body (fun e => [e]) 0 i = body i := by
  have last : ∀ e, Repeat.once.ways size body (fun e => [e]) 1 e = [e] := by
    intro e
    rw [ways]
    rfl
  rw [ways_eq h]
  simp only [allowsMore, once] at last ⊢
  simp [last]

end

mutual

theorem Term.ways_leads (text : Array Char) : ∀ t : Term, LeadsOn text.size (t.ways text)
  | .guard _ _ _ => fun _ _ _ => Guard.ways_inside
  | .group bs _ _ _ => branchesWays_leads text bs

theorem branchWays_leads (text : Array Char) :
    ∀ ts : List Term, LeadsOn text.size (branchWays text ts)
  | [] => by
    intro i inside e he
    rw [List.mem_singleton.mp he]
    exact ⟨Nat.le_refl i, inside⟩
  | t :: ts => by
    intro i inside
    exact Repeat.ways_leads (t.ways_leads text) (branchWays_leads text ts) rfl inside

/-- **A pattern leads on**, from wherever it is taken up. -/
theorem branchesWays_leads (text : Array Char) :
    ∀ bs : List (List Term), LeadsOn text.size (branchesWays text bs)
  | [] => by
    intro i _ e he
    cases he
  | b :: bs => by
    intro i inside e he
    rcases List.mem_append.mp he with he | he
    · exact branchWays_leads text b i inside e he
    · exact branchesWays_leads text bs i inside e he

end

mutual

/-- The term with a group around every guard, which is repeated in place of the guard. -/
def Term.grouped : Term → Term
  | .guard g rep label => .group [[.guard g .once label]] label rep label
  | .group bs inner rep label => .group (groupedBranches bs) inner rep label

def groupedBranch : List Term → List Term
  | [] => []
  | t :: ts => t.grouped :: groupedBranch ts

def groupedBranches : List (List Term) → List (List Term)
  | [] => []
  | b :: bs => groupedBranch b :: groupedBranches bs

end

def Pattern.grouped (p : Pattern) : Pattern := ⟨groupedBranches p.branches, p.label⟩

mutual

theorem Term.grouped_plain : ∀ t : Term, t.grouped.plain = t.plain
  | .guard g rep label => by simp [Term.grouped, Term.plain, plainBranches, plainBranch]
  | .group bs inner rep label => groupedBranches_plain bs

theorem groupedBranch_plain : ∀ ts : List Term, plainBranch (groupedBranch ts) = plainBranch ts
  | [] => rfl
  | t :: ts => by rw [groupedBranch, plainBranch, plainBranch, t.grouped_plain, groupedBranch_plain]

theorem groupedBranches_plain :
    ∀ bs : List (List Term), plainBranches (groupedBranches bs) = plainBranches bs
  | [] => rfl
  | b :: bs => by
    rw [groupedBranches, plainBranches, plainBranches, groupedBranch_plain, groupedBranches_plain]

end

theorem Term.grouped_rep (t : Term) : t.grouped.rep = t.rep := by
  cases t <;> rfl

mutual

/-- A guard in a group leads where the guard leads. Repeated they do as well, as one recursion says
where either leads then. -/
theorem Term.grouped_ways (text : Array Char) : ∀ t : Term, t.grouped.ways text = t.ways text
  | .guard g rep label => by
    funext i
    have once : Repeat.once.ways text.size (g.ways text) (fun e => [e]) 0 i = g.ways text i :=
      Repeat.ways_once fun _ => Guard.ways_inside
    simpa [Term.grouped, Term.ways, branchesWays, branchWays, Term.rep] using once
  | .group bs inner rep label => branchesWays_grouped text bs

theorem branchWays_grouped (text : Array Char) :
    ∀ ts : List Term, branchWays text (groupedBranch ts) = branchWays text ts
  | [] => rfl
  | t :: ts => by
    funext i
    rw [groupedBranch, branchWays, branchWays, t.grouped_rep, t.grouped_ways,
      branchWays_grouped text ts]

/-- **Groups around guards make no difference.** -/
theorem branchesWays_grouped (text : Array Char) :
    ∀ bs : List (List Term), branchesWays text (groupedBranches bs) = branchesWays text bs
  | [] => rfl
  | b :: bs => by
    funext i
    rw [groupedBranches, branchesWays, branchesWays, branchWays_grouped text b,
      branchesWays_grouped text bs]

end

end WholeMatch
