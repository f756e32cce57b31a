import Mathlib.Data.Set.Card
import WholeMatch.Proofs.Graphs

/-! A state is merged into another only when it has no guard and every reachable edge to it starts
there. Runs before and after are the same, except that they stand in the other state where they
stood in the one that is gone. -/

namespace WholeMatch

namespace Graph

/-- The states that can be reached. -/
def reached (g : Graph) (start : Nat) : Set Nat := {u | g.Reach start u}

/-- In `g'` the state `t` of `g` is merged into `s`. -/
structure Merges (g g' : Graph) (start s t : Nat) : Prop where
  guard : ∀ u, g'.guard u = g.guard u
  free : g.guard t = none
  apart : t ≠ s
  first : t ≠ start
  reach : g.Reach start s
  entry : t ∈ g.targets s
  only : ∀ u, g.Reach start u → t ∈ g.targets u → u = s
  into : ∀ v, v ∈ g'.targets s ↔ v ∈ g.targets s ∧ v ≠ t ∨ v ∈ g.targets t
  gone : g'.targets t = []
  other : ∀ u, u ≠ s → u ≠ t → g'.targets u = g.targets u

/-- Where a run stands after a merge. -/
def standsFor (s t u : Nat) : Nat := if u = t then s else u

theorem standsFor_of_ne {s t u : Nat} (h : u ≠ t) : standsFor s t u = u := if_neg h

theorem standsFor_self {s t : Nat} : standsFor s t t = s := if_pos rfl

namespace Merges

variable {g g' : Graph} {text : Array Char} {start s t u p q : Nat}

theorem enters (h : Merges g g' start s t) : g'.Enters text u p q ↔ g.Enters text u p q := by
  simp only [Enters, h.guard]

theorem reach_gone (h : Merges g g' start s t) : g.Reach start t := h.reach.tail h.entry

theorem not_loop (h : Merges g g' start s t) : t ∉ g.targets t := fun edge =>
  h.apart (h.only t h.reach_gone edge)

theorem run {x : Nat × Nat} (h : Merges g g' start s t) (here : g.Reach start x.1)
    (run : g.Run text x (u, q)) :
    g'.Run text (standsFor s t x.1, x.2) (standsFor s t u, q) := by
  suffices all : ∀ y, g.Run text x y → g'.Run text (standsFor s t x.1, x.2) (standsFor s t y.1, y.2)
    from all _ run
  intro y run
  induction run with
  | refl => exact .refl
  | @tail x y run step ih =>
    obtain ⟨u, p'⟩ := x
    obtain ⟨v, q'⟩ := y
    obtain ⟨edge, enters⟩ := step
    simp only at edge enters ih ⊢
    have reach : g.Reach start u := here.trans (Run.reach run)
    by_cases target : v = t
    · subst target
      rw [enters_of_guard_none h.free] at enters
      subst enters
      rw [h.only u reach edge, standsFor_of_ne (Ne.symm h.apart)] at ih
      rw [standsFor_self]
      exact ih
    · rw [standsFor_of_ne target]
      apply ih.tail
      refine ⟨?_, h.enters.mpr enters⟩
      by_cases source : u = t
      · subst source
        rw [standsFor_self]
        exact (h.into v).mpr (.inr edge)
      · rw [standsFor_of_ne source]
        by_cases same : u = s
        · subst same
          exact (h.into v).mpr (.inl ⟨edge, target⟩)
        · simpa only [h.other u same source] using edge

theorem run_back (h : Merges g g' start s t) (run : g'.Run text (start, p) (u, q)) :
    g.Run text (start, p) (u, q) ∧ u ≠ t := by
  suffices all : ∀ y, g'.Run text (start, p) y → g.Run text (start, p) y ∧ y.1 ≠ t from all _ run
  intro y run
  induction run with
  | refl => exact ⟨.refl, Ne.symm h.first⟩
  | @tail x y _ step ih =>
    obtain ⟨u, p'⟩ := x
    obtain ⟨v, q'⟩ := y
    obtain ⟨edge, enters⟩ := step
    obtain ⟨run, source⟩ := ih
    simp only at edge enters source ⊢
    have enters := h.enters.mp enters
    by_cases same : u = s
    · subst same
      rcases (h.into v).mp edge with ⟨edge, target⟩ | edge
      · exact ⟨run.tail ⟨edge, enters⟩, target⟩
      · have stop : g.Run text (start, p) (t, p') :=
          run.tail ⟨h.entry, (enters_of_guard_none h.free).mpr rfl⟩
        exact ⟨stop.tail ⟨edge, enters⟩, fun target => h.not_loop (target ▸ edge)⟩
    · rw [h.other u same source] at edge
      exact ⟨run.tail ⟨edge, enters⟩, fun target => same (h.only u (Run.reach run) (target ▸ edge))⟩

/-- A run comes to a state just when, after the merge, it comes to what stands for it. -/
theorem run_iff (h : Merges g g' start s t) :
    g'.Run text (start, p) (standsFor s t u, q) ↔ g.Run text (start, p) (u, q) := by
  constructor
  · intro run
    have back := (h.run_back run).1
    by_cases same : u = t
    · subst same
      rw [standsFor_self] at back
      exact back.tail ⟨h.entry, (enters_of_guard_none h.free).mpr rfl⟩
    · rwa [standsFor_of_ne same] at back
  · intro run
    have after := h.run (x := (start, p)) .refl run
    rwa [standsFor_of_ne (Ne.symm h.first)] at after

end Merges

/-- The graph without its guards. -/
def bare (g : Graph) : Graph := { g with guard := fun _ => none }

theorem reach_bare {g : Graph} {s t : Nat} : g.Reach s t ↔ g.bare.Run #[] (s, 0) (t, 0) := by
  constructor
  · intro reach
    induction reach with
    | refl => exact .refl
    | tail _ edge ih => exact ih.tail ⟨edge, rfl⟩
  · exact fun run => run.reach

namespace Merges

variable {g g' : Graph} {start s t u v : Nat}

theorem bare (h : Merges g g' start s t) : Merges g.bare g'.bare start s t :=
  { h with guard := fun _ => rfl, free := rfl }

/-- A merge leaves everything else in reach. -/
theorem reach_iff (h : Merges g g' start s t) :
    g'.Reach start u ↔ g.Reach start u ∧ u ≠ t := by
  simp only [reach_bare]
  constructor
  · exact h.bare.run_back
  · rintro ⟨run, other⟩
    have after := h.bare.run (x := (start, 0)) .refl run
    rwa [standsFor_of_ne (Ne.symm h.first), standsFor_of_ne other] at after

/-- What a reachable state leads to, it leads to afterwards, or what stands for it does. -/
theorem leads (h : Merges g g' start s t) (here : g.Reach start u) (path : g.Reach u v) :
    g'.Reach (standsFor s t u) (standsFor s t v) := by
  have here' : g.bare.Reach start u := here
  rw [reach_bare] at path
  exact (h.bare.run here' path).reach

/-- An edge of a reachable state was there before, or is one of the merged state. -/
theorem edge_back (h : Merges g g' start s t) (other : u ≠ t) (edge : v ∈ g'.targets u) :
    v ∈ g.targets u ∨ v ∈ g.targets t := by
  by_cases same : u = s
  · subst same
    exact ((h.into v).mp edge).imp_left And.left
  · rw [h.other u same other] at edge
    exact .inl edge

end Merges

/-- `merged` merges make `g'` of `g`, and what stands for the final state is `accept'`. -/
inductive Shrinks (start : Nat) (g : Graph) (accept : Nat) :
    (merged : Nat) → (g' : Graph) → (accept' : Nat) → Prop
  | none : Shrinks start g accept 0 g accept
  | merge {merged accept' s t : Nat} {g' g'' : Graph}
      (before : Shrinks start g accept merged g' accept') (last : Merges g' g'' start s t) :
      Shrinks start g accept (merged + 1) g'' (standsFor s t accept')

namespace Shrinks

variable {g g' : Graph} {text : Array Char} {start accept merged accept' u : Nat}

theorem guard (h : Shrinks start g accept merged g' accept') : g'.guard u = g.guard u := by
  induction h with
  | none => rfl
  | merge _ last ih => exact (last.guard u).trans ih

/-- The final state is come to as before. -/
theorem run_iff (h : Shrinks start g accept merged g' accept') {p q : Nat} :
    g'.Run text (start, p) (accept', q) ↔ g.Run text (start, p) (accept, q) := by
  induction h with
  | none => rfl
  | merge _ last ih => exact last.run_iff.trans ih

theorem reach (h : Shrinks start g accept merged g' accept') (reach : g'.Reach start u) :
    g.Reach start u := by
  induction h with
  | none => exact reach
  | merge _ last ih => exact ih (last.reach_iff.mp reach).1

/-- What is still in reach leads to the final state if it did before. -/
theorem leads (h : Shrinks start g accept merged g' accept') (here : g'.Reach start u)
    (path : g.Reach u accept) : g'.Reach u accept' := by
  induction h with
  | none => exact path
  | merge _ last ih =>
    obtain ⟨before, other⟩ := last.reach_iff.mp here
    have after := last.leads before (ih before)
    rwa [standsFor_of_ne other] at after

/-- A start that nothing in reach enters is not entered afterwards. -/
theorem unentered (h : Shrinks start g accept merged g' accept')
    (alone : ∀ u, g.Reach start u → start ∉ g.targets u) :
    ∀ u, g'.Reach start u → start ∉ g'.targets u := by
  induction h with
  | none => exact alone
  | @merge _ _ _ t _ _ _ last ih =>
    intro u here edge
    obtain ⟨before, other⟩ := last.reach_iff.mp here
    rcases last.edge_back other edge with edge | edge
    · exact ih u before edge
    · exact ih t last.reach_gone edge

/-- **Every merge takes one state out of reach.** -/
theorem card (h : Shrinks start g accept merged g' accept') (finite : (g.reached start).Finite) :
    (g'.reached start).ncard + merged = (g.reached start).ncard := by
  induction h with
  | none => rfl
  | @merge merged _ _ t g₁ g₂ before last ih =>
    have left : g₂.reached start = g₁.reached start \ {t} := Set.ext fun u => last.reach_iff
    have finite : (g₁.reached start).Finite := finite.subset fun u => before.reach
    have gone : t ∈ g₁.reached start := last.reach_gone
    rw [← ih, left, ← Set.ncard_sdiff_singleton_add_one gone finite]
    omega

end Shrinks

end Graph

end WholeMatch
