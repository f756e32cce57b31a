import Mathlib
import WholeMatch.Proofs.Readings
import WholeMatch.Proofs.Thompson

namespace WholeMatch

/-- `Repeat.expansion`, counted in natural numbers. -/
def Repeat.estimate (rep : Repeat) (atom : Nat) : Nat :=
  atom * Nat.max (rep.max.getD rep.min) 1 + 2

mutual

def Term.estimate : Term → Nat
  | .guard _ rep _ => rep.estimate 2
  | .group branches _ rep _ => rep.estimate (2 + branchesEstimate branches)

def branchEstimate : List Term → Nat
  | [] => 0
  | t :: ts => t.estimate + branchEstimate ts

def branchesEstimate : List (List Term) → Nat
  | [] => 0
  | b :: bs => branchEstimate b + branchesEstimate bs

end

/-- The expansion of a pattern, counted in natural numbers. -/
def Pattern.estimate (p : Pattern) : Nat := 2 + branchesEstimate p.branches

theorem saturate_of_le {n : Nat} (h : n ≤ wordMax) : saturate n = n := Nat.min_eq_left h

theorem saturate_of_ge {n : Nat} (h : wordMax ≤ n) : saturate n = wordMax := Nat.min_eq_right h

/-- Saturating a part of a sum makes no difference to the whole. -/
theorem saturate_add_left (m n : Nat) : saturate (saturate m + n) = saturate (m + n) := by
  unfold saturate
  omega

theorem saturate_add_right (m n : Nat) : saturate (m + saturate n) = saturate (m + n) := by
  rw [Nat.add_comm, saturate_add_left, Nat.add_comm]

/-- Nor does saturating a factor, unless the other one is zero. -/
theorem saturate_mul_left {m n : Nat} (hn : 1 ≤ n) :
    saturate (saturate m * n) = saturate (m * n) := by
  rcases Nat.le_total m wordMax with small | large
  · rw [saturate_of_le small]
  · have factor : wordMax * 1 ≤ wordMax * n := Nat.mul_le_mul_left _ hn
    have whole : wordMax * n ≤ m * n := Nat.mul_le_mul_right _ large
    rw [saturate_of_ge large, saturate_of_ge (by omega), saturate_of_ge (by omega)]

theorem Repeat.expansion_saturate (rep : Repeat) (atom : Nat) :
    rep.expansion (saturate atom) = saturate (rep.estimate atom) := by
  have least : 1 ≤ Nat.max (rep.max.getD rep.min) 1 := Nat.le_max_right _ _
  rw [Repeat.expansion, Repeat.estimate, saturate_mul_left least, saturate_add_left]

mutual

theorem Term.expansion_eq (t : Term) : t.expansion = saturate t.estimate := by
  match t with
  | .guard _ rep _ => exact rep.expansion_saturate 2
  | .group bs _ rep _ =>
    rw [Term.expansion, Term.estimate, branchesExpansion_eq bs, saturate_add_right,
      rep.expansion_saturate]

theorem branchExpansion_eq (ts : List Term) :
    branchExpansion ts = saturate (branchEstimate ts) := by
  match ts with
  | [] => rfl
  | t :: ts =>
    rw [branchExpansion, branchEstimate, Term.expansion_eq t, branchExpansion_eq ts,
      saturate_add_left, saturate_add_right]

theorem branchesExpansion_eq (bs : List (List Term)) :
    branchesExpansion bs = saturate (branchesEstimate bs) := by
  match bs with
  | [] => rfl
  | b :: bs =>
    rw [branchesExpansion, branchesEstimate, branchExpansion_eq b, branchesExpansion_eq bs,
      saturate_add_left, saturate_add_right]

end

/-- **Counting in words** only cuts an estimate off at the largest word. -/
theorem Pattern.expansion_eq (p : Pattern) : p.expansion = saturate p.estimate := by
  rw [Pattern.expansion, Pattern.estimate, branchesExpansion_eq, saturate_add_right]

mutual

/-- No branch is empty, and no bounds are reversed. -/
def Term.Tidy : Term → Prop
  | .guard _ rep _ => rep.Ordered
  | .group bs _ rep _ => branchesTidy bs ∧ rep.Ordered

def branchTidy : List Term → Prop
  | [] => True
  | t :: ts => t.Tidy ∧ branchTidy ts

def branchesTidy : List (List Term) → Prop
  | [] => True
  | b :: bs => (b ≠ [] ∧ branchTidy b) ∧ branchesTidy bs

end

mutual

theorem Grammar.Piece.tidy {w : List Char} {t : Term} (h : Piece .own w t) : t.Tidy := by
  match h with
  | .guard _ often => exact often.ordered
  | .group inside _ often => exact ⟨inside.tidy, often.ordered⟩

theorem Grammar.Row.tidy {w : List Char} {ts : List Term} (h : Row .own w ts) :
    ts ≠ [] ∧ branchTidy ts := by
  match h with
  | .last piece _ => exact ⟨List.cons_ne_nil _ _, piece.tidy, trivial⟩
  | .cons piece rest _ => exact ⟨List.cons_ne_nil _ _, piece.tidy, rest.tidy.2⟩

theorem Grammar.Choice.tidy {w : List Char} {bs : List (List Term)} (h : Choice .own w bs) :
    branchesTidy bs := by
  match h with
  | .last row => exact ⟨row.tidy, trivial⟩
  | .cons row others => exact ⟨row.tidy, others.tidy⟩

end

theorem Repeat.footprint_eq_estimate {rep : Repeat} (ordered : rep.Ordered) (atom : Nat) :
    rep.footprint atom = rep.estimate atom := by
  have written : rep.written = rep.max.getD rep.min := by
    cases bound : rep.max with
    | none => simp [written, bound]
    | some m => simpa [written, bound] using ordered m bound
  rw [footprint, estimate, written]

theorem Repeat.estimate_le (rep : Repeat) {m n : Nat} (h : m ≤ n) :
    rep.estimate m ≤ rep.estimate n :=
  Nat.add_le_add_right (Nat.mul_le_mul_right _ h) 2

mutual

theorem Term.footprint_le (t : Term) (tidy : t.Tidy) : t.footprint ≤ t.estimate := by
  match t with
  | .guard _ rep _ => exact Nat.le_of_eq (Repeat.footprint_eq_estimate tidy 2)
  | .group bs _ rep _ =>
    rw [Term.footprint, Repeat.footprint_eq_estimate tidy.2]
    exact rep.estimate_le (branchesFootprint_le bs tidy.1)

theorem branchFootprint_le (ts : List Term) (tidy : ts ≠ [] ∧ branchTidy ts) :
    branchFootprint ts ≤ branchEstimate ts := by
  match ts with
  | [] => exact absurd rfl tidy.1
  | t :: ts =>
    exact Nat.add_le_add (Term.footprint_le t tidy.2.1) (followingFootprint_le ts tidy.2.2)

theorem followingFootprint_le (ts : List Term) (tidy : branchTidy ts) :
    followingFootprint ts ≤ branchEstimate ts := by
  match ts with
  | [] => exact Nat.le_refl 0
  | t :: ts =>
    exact Nat.add_le_add (Term.footprint_le t tidy.1) (followingFootprint_le ts tidy.2)

/-- **A pattern is written out in no more states than are estimated**, if no branch is empty and no
bounds are reversed. -/
theorem branchesFootprint_le (bs : List (List Term)) (tidy : branchesTidy bs) :
    branchesFootprint bs ≤ 2 + branchesEstimate bs := by
  match bs with
  | [] => exact Nat.le_refl 2
  | b :: bs =>
    have first := branchFootprint_le b tidy.1
    have others := alternativesFootprint_le bs tidy.2
    rw [branchesFootprint, branchesEstimate]
    split <;> omega

theorem alternativesFootprint_le (bs : List (List Term)) (tidy : branchesTidy bs) :
    alternativesFootprint bs ≤ branchesEstimate bs := by
  match bs with
  | [] => exact Nat.le_refl 0
  | b :: bs =>
    exact Nat.add_le_add (branchFootprint_le b tidy.1) (alternativesFootprint_le bs tidy.2)

end

/-- A pattern that is read is written out in no more states than its expansion says. -/
theorem footprint_le_expansion {source : String} {p : Pattern}
    (h : Pattern.parse source = .ok p) :
    p.footprint ≤ p.expansion ∧ p.expansion = p.estimate ∧ p.expansion ≤ expansionLimit := by
  obtain ⟨derived, _, small⟩ := parse_eq_ok_iff.mp h
  have cut := p.expansion_eq
  have exact : p.expansion = p.estimate := by
    simp only [saturate, wordMax, expansionLimit] at cut small
    omega
  exact ⟨exact ▸ branchesFootprint_le p.branches derived.tidy, exact, small⟩

/-- There are ids for all the states of a pattern that is read. -/
theorem footprint_le_words {source : String} {p : Pattern} (h : Pattern.parse source = .ok p) :
    p.footprint ≤ words := by
  obtain ⟨states, _, small⟩ := footprint_le_expansion h
  exact Nat.le_trans (Nat.le_trans states small) (by decide)

/-- A repetition is estimated at no less than what it repeats. -/
theorem Repeat.le_estimate (rep : Repeat) (atom : Nat) : atom ≤ rep.estimate atom := by
  have least : 1 ≤ Nat.max (rep.max.getD rep.min) 1 := Nat.le_max_right _ _
  have := Nat.mul_le_mul_left atom least
  rw [Repeat.estimate]
  omega

mutual

theorem Term.length_guards_le (t : Term) : t.guards.length ≤ t.estimate := by
  match t with
  | .guard _ rep _ =>
    exact Nat.le_trans (Nat.le_succ 1) (rep.le_estimate 2)
  | .group bs _ rep _ =>
    have inside := length_branchesGuards_le bs
    have outside := rep.le_estimate (2 + branchesEstimate bs)
    rw [Term.guards, Term.estimate]
    omega

theorem length_branchGuards_le (ts : List Term) :
    (branchGuards ts).length ≤ branchEstimate ts := by
  match ts with
  | [] => exact Nat.le_refl 0
  | t :: ts =>
    have first := Term.length_guards_le t
    have rest := length_branchGuards_le ts
    rw [branchGuards, List.length_append, branchEstimate]
    omega

/-- There are no more guards than states are estimated, for each has a state of its own. -/
theorem length_branchesGuards_le (bs : List (List Term)) :
    (branchesGuards bs).length ≤ branchesEstimate bs := by
  match bs with
  | [] => exact Nat.le_refl 0
  | b :: bs =>
    have first := length_branchGuards_le b
    have rest := length_branchesGuards_le bs
    rw [branchesGuards, List.length_append, branchesEstimate]
    omega

end

/-- **The automaton of a pattern that is read stays within its expansion**, which is no less than
the estimate it stands for and within the limit. So the ids of its states and of its guards fit in
words. -/
theorem ofPattern_within_expansion {source : String} {p : Pattern}
    (h : Pattern.parse source = .ok p) :
    ∃ n, Nfa.ofPattern p = .ok n ∧ n.Valid ∧ n.size ≤ p.expansion ∧ p.expansion = p.estimate ∧
      p.expansion ≤ expansionLimit ∧ (∀ id < n.size, word id = id) ∧
      ∀ g < n.guards.size, word g = g := by
  obtain ⟨states, exact, small⟩ := footprint_le_expansion h
  obtain ⟨n, hn, size, valid, guards, _⟩ := Nfa.ofPattern_accepts (footprint_le_words h)
  have few : n.guards.size ≤ p.estimate := by
    have le := length_branchesGuards_le p.branches
    rw [← guards, Array.length_toList] at le
    rw [Pattern.estimate]
    omega
  have fits : expansionLimit < words := by decide
  refine ⟨n, hn, valid, Nat.le_trans size states, exact, small, fun id hid => ?_, fun g hg => ?_⟩
  · exact word_of_lt (by omega)
  · exact word_of_lt (by omega)

/-- `((a{2,3}|b*){0,2}c{0}){3,}`. The `c` is built, but clones of the group around it leave it
out. -/
def repetitive : Pattern :=
  let a : Term := .guard (.item ⟨.literal 'a', "a"⟩) ⟨2, some 3⟩ "a{2,3}"
  let b : Term := .guard (.item ⟨.literal 'b', "b"⟩) ⟨0, none⟩ "b*"
  let inner : Term := .group [[a], [b]] "a{2,3}|b*" ⟨0, some 2⟩ "(a{2,3}|b*){0,2}c{0}"
  let c : Term := .guard (.item ⟨.literal 'c', "c"⟩) ⟨0, some 0⟩ "c{0}"
  ⟨[[.group [[inner, c]] "(a{2,3}|b*){0,2}c{0}" ⟨3, none⟩ "((a{2,3}|b*){0,2}c{0}){3,}"]],
    "((a{2,3}|b*){0,2}c{0}){3,}"⟩

theorem repetitive_within_expansion :
    Pattern.parse "((a{2,3}|b*){0,2}c{0}){3,}" = .ok repetitive ∧ repetitive.expansion = 112 ∧
    ∃ n, Nfa.ofPattern repetitive = .ok n ∧ n.Valid ∧ n.size ≤ 112 ∧ repetitive.estimate = 112 ∧
      (∀ id < n.size, word id = id) ∧ ∀ g < n.guards.size, word g = g := by
  have read : Pattern.parse "((a{2,3}|b*){0,2}c{0}){3,}" = .ok repetitive := by cbv
  have expansion : repetitive.expansion = 112 := by decide
  obtain ⟨n, hn, valid, size, estimate, _, ids, guards⟩ := ofPattern_within_expansion read
  rw [expansion] at size estimate
  exact ⟨read, expansion, n, hn, valid, size, estimate.symm, ids, guards⟩

end WholeMatch
