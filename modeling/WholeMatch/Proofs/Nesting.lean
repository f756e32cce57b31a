import Mathlib.Logic.Relation
import WholeMatch.Backtrack.Halting

/-! The goals behind the first of a continuation stand for the groups that the machine is inside:
one for each, from the inside out, waiting for the iteration to be done. So a continuation has at
most one goal more than groups are nested, whatever was read and however often groups were
repeated. -/

namespace WholeMatch

mutual

/-- How deep groups are nested in a term, the term itself among them. -/
def Term.depth : Term → Nat
  | .guard _ _ _ => 0
  | .group branches _ _ _ => branchesDepth branches + 1

def branchDepth : List Term → Nat
  | [] => 0
  | t :: ts => Nat.max t.depth (branchDepth ts)

def branchesDepth : List (List Term) → Nat
  | [] => 0
  | b :: bs => Nat.max (branchDepth b) (branchesDepth bs)

end

/-- How deep groups are nested in a pattern. -/
def Pattern.depth (p : Pattern) : Nat := branchesDepth p.branches

theorem depth_le_of_mem {t : Term} {ts : List Term} (h : t ∈ ts) : t.depth ≤ branchDepth ts := by
  induction ts with
  | nil => cases h
  | cons u ts ih =>
    rw [branchDepth]
    rcases List.mem_cons.mp h with rfl | later
    · exact Nat.le_max_left _ _
    · exact Nat.le_trans (ih later) (Nat.le_max_right _ _)

theorem branchDepth_le_of_mem {b : Branch} {bs : List Branch} (h : b ∈ bs) :
    branchDepth b ≤ branchesDepth bs := by
  induction bs with
  | nil => cases h
  | cons b' bs ih =>
    rw [branchesDepth]
    rcases List.mem_cons.mp h with rfl | later
    · exact Nat.le_max_left _ _
    · exact Nat.le_trans (ih later) (Nat.le_max_right _ _)

namespace Backtrack

/-- A goal is made of the branches: of all of them, of what is left of one, or of a group in one and
what stands behind it. -/
inductive Goal.PartOf (bs : List Branch) : Goal → Prop
  | branches : PartOf bs (.branches bs)
  | chain {b ts : List Term} (branch : b ∈ bs) (left : ts <:+ b) : PartOf bs (.chain ts)
  | again {b rest : List Term} {body : List Branch} {inner label : String} {rep : Repeat}
      {count : Nat} (branch : b ∈ bs) (left : .group body inner rep label :: rest <:+ b) :
      PartOf bs (.again body rep rest count)
  | iterated {b rest : List Term} {body : List Branch} {inner label : String} {rep : Repeat}
      {count entered : Nat} (branch : b ∈ bs) (left : .group body inner rep label :: rest <:+ b) :
      PartOf bs (.iterated body rep rest count entered)

/-- The goals that wait behind the branches `bs` of a pattern: for each group around them, from the
inside out, that an iteration of it is done. -/
inductive Encloses (p : Pattern) : List Branch → List Goal → Prop
  | whole : Encloses p p.branches []
  | group {bs body : List Branch} {rep : Repeat} {rest : List Term} {count entered : Nat}
      {cont : List Goal} (part : (Goal.iterated body rep rest count entered).PartOf bs)
      (around : Encloses p bs cont) :
      Encloses p body (.iterated body rep rest count entered :: cont)

/-- A continuation is a goal and what waits behind the branches that it is a part of. -/
inductive Pending (p : Pattern) : List Goal → Prop
  | done : Pending p []
  | goal {bs : List Branch} {goal : Goal} {cont : List Goal} (part : goal.PartOf bs)
      (around : Encloses p bs cont) : Pending p (goal :: cont)

variable {p : Pattern} {bs : List Branch} {cont : List Goal} {goal : Goal} {stack : List Frame}
  {cur : Cursor} {c d : Config}

/-- What waits is a continuation itself. -/
theorem Encloses.pending (h : Encloses p bs cont) : Pending p cont := by
  cases h with
  | whole => exact .done
  | group part around => exact .goal part around

/-- A group is nested less deep than the branches that it stands in. -/
theorem Goal.PartOf.depth_lt {body : List Branch} {rep : Repeat} {rest : List Term}
    {count entered : Nat} (h : (Goal.iterated body rep rest count entered).PartOf bs) :
    branchesDepth body < branchesDepth bs := by
  cases h with
  | @iterated b _ _ inner label _ _ _ branch left =>
    have inside : Term.group body inner rep label ∈ b := left.subset (List.mem_cons_self ..)
    have group := depth_le_of_mem inside
    rw [Term.depth] at group
    exact Nat.lt_of_lt_of_le group (branchDepth_le_of_mem branch)

/-- **As many goals wait as there are groups around.** -/
theorem Encloses.length_le (h : Encloses p bs cont) : cont.length + branchesDepth bs ≤ p.depth := by
  induction h with
  | whole => exact Nat.le_of_eq (Nat.zero_add _)
  | group part _ ih =>
    have deeper := part.depth_lt
    rw [List.length_cons]
    omega

theorem Pending.length_le (h : Pending p cont) : cont.length ≤ p.depth + 1 := by
  cases h with
  | done => exact Nat.zero_le _
  | goal _ around =>
    have waiting := around.length_le
    rw [List.length_cons]
    omega

/-- A frame is taken up with a continuation of that shape. -/
def Frame.Pending (p : Pattern) : Frame → Prop
  | .resume _ cont => Backtrack.Pending p cont
  | .shrink rest _ cont => Backtrack.Pending p (.chain rest :: cont)

def Config.Pending (p : Pattern) : Config → Prop
  | .search _ cont stack => Backtrack.Pending p cont ∧ ∀ frame ∈ stack, frame.Pending p
  | .failed stack => ∀ frame ∈ stack, frame.Pending p

theorem initial_pending (p : Pattern) (text : Array Char) : (initial p text).Pending p :=
  ⟨.goal .branches .whole, by simp⟩

/-- The frames below stay, and one is put on top where a part of a run may be fallen back to. -/
theorem pending_push {below : Prop} [Decidable below] {frame : Frame} (h : frame.Pending p)
    (hs : ∀ frame ∈ stack, frame.Pending p) :
    ∀ f ∈ (if below then stack else frame :: stack), f.Pending p := by
  split
  · exact hs
  · exact List.forall_mem_cons.mpr ⟨h, hs⟩

/-- A goal is executed to goals that are parts of the same branches, or of those of a group in
them, with the group waiting behind. -/
theorem execute_pending (part : goal.PartOf bs) (around : Encloses p bs cont)
    (hs : ∀ frame ∈ stack, frame.Pending p) (h : execute goal cur cont stack = .ok d) :
    d.Pending p := by
  cases part with
  | branches =>
    match bs, around with
    | [], _ =>
      cases h
      exact hs
    | b :: bs, around =>
      cases h
      have chain : ∀ b' ∈ b :: bs, Pending p (.chain b' :: cont) := fun b' hb =>
        .goal (.chain hb (List.suffix_refl _)) around
      refine ⟨chain b (List.mem_cons_self ..), ?_⟩
      intro frame hf
      rcases List.mem_append.mp hf with new | old
      · obtain ⟨b', hb, rfl⟩ := List.mem_map.mp new
        exact chain b' (List.mem_cons_of_mem _ hb)
      · exact hs frame old
  | @chain b ts branch left =>
    match ts, left with
    | [], _ =>
      cases h
      exact ⟨around.pending, hs⟩
    | .guard g rep label :: rest, left =>
      have onward : Pending p (.chain rest :: cont) :=
        .goal (.chain branch ((List.suffix_cons _ _).trans left)) around
      obtain ⟨found, _, h⟩ := bind_eq_ok.mp h
      cases found with
      | none =>
        cases h
        exact hs
      | some run =>
        cases h
        exact ⟨onward, pending_push onward hs⟩
    | .group body inner rep label :: rest, left =>
      cases h
      exact ⟨.goal (.again branch left) around, hs⟩
  | @again b rest body inner label rep count branch left =>
    have onward : Pending p (.chain rest :: cont) :=
      .goal (.chain branch ((List.suffix_cons _ _).trans left)) around
    rw [execute] at h
    split at h
    · cases h
      refine ⟨.goal .branches (.group (.iterated branch left) around), ?_⟩
      split
      · exact List.forall_mem_cons.mpr ⟨onward, hs⟩
      · exact hs
    · split at h
      · cases h
        exact hs
      · cases h
        exact ⟨onward, hs⟩
  | @iterated b rest body inner label rep count entered branch left =>
    rw [execute] at h
    split at h
    · cases h
      exact hs
    · split at h
      · cases h
        exact ⟨.goal (.again branch left) around, hs⟩
      · cases h

/-- **A step keeps the shape of every continuation**, whether a goal is executed or a frame is taken
up. -/
theorem step_pending (hc : c.Pending p) (h : Steps c d) : d.Pending p := by
  unfold Steps at h
  match c, hc with
  | .search cur [] stack, hc =>
    rw [step] at h
    split at h
    · cases h
    · cases h
      exact hc.2
  | .search cur (goal :: cont) stack, hc =>
    obtain ⟨e, he, h⟩ := bind_eq_ok.mp h
    cases h
    cases hc.1 with
    | goal part around => exact execute_pending part around hc.2 he
  | .failed [], _ => cases h
  | .failed (.resume cur cont :: stack), hc =>
    cases h
    exact List.forall_mem_cons.mp hc
  | .failed (.shrink rest [] cont :: stack), hc =>
    cases h
    exact (List.forall_mem_cons.mp hc).2
  | .failed (.shrink rest (cur :: runs) cont :: stack), hc =>
    cases h
    have top := List.forall_mem_cons.mp hc
    have kept : (Frame.shrink rest runs cont).Pending p := top.1
    exact ⟨kept, pending_push kept top.2⟩

/-- What a run from the beginning can come to. -/
def Reached (p : Pattern) (text : Array Char) (c : Config) : Prop :=
  Relation.ReflTransGen Steps (initial p text) c

theorem reached_pending {text : Array Char} (h : Reached p text c) : c.Pending p := by
  induction h with
  | refl => exact initial_pending p text
  | tail _ step ih => exact step_pending ih step

def Frame.continuation : Frame → List Goal
  | .resume _ cont => cont
  | .shrink _ _ cont => cont

/-- The continuation that is followed, if a path is, and those that are kept in frames. -/
def Config.continuations : Config → List (List Goal)
  | .search _ cont stack => cont :: stack.map Frame.continuation
  | .failed stack => stack.map Frame.continuation

theorem Frame.Pending.length_le {frame : Frame} (h : frame.Pending p) :
    frame.continuation.length ≤ p.depth + 1 := by
  cases frame with
  | resume cur cont => exact Backtrack.Pending.length_le h
  | shrink rest runs cont =>
    have longer : (Goal.chain rest :: cont).length ≤ p.depth + 1 := Backtrack.Pending.length_le h
    exact Nat.le_of_succ_le longer

/-- **Continuations are as long as groups are deep.** Whatever configuration the machine comes to,
on whatever pattern and text, no continuation that it follows or keeps has more than one goal
beyond the number of groups that are nested in the pattern. -/
theorem continuations_within_depth {text : Array Char} (h : Reached p text c) :
    ∀ cont ∈ c.continuations, cont.length ≤ p.depth + 1 := by
  have pending := reached_pending h
  have kept : ∀ {stack : List Frame}, (∀ frame ∈ stack, frame.Pending p) →
      ∀ cont ∈ stack.map Frame.continuation, cont.length ≤ p.depth + 1 := by
    intro stack hs cont hc
    obtain ⟨frame, hf, rfl⟩ := List.mem_map.mp hc
    exact (hs frame hf).length_le
  cases c with
  | search cur cont stack =>
    exact List.forall_mem_cons.mpr ⟨pending.1.length_le, kept pending.2⟩
  | failed stack => exact kept pending

/-- The configuration that so many steps lead to, or the last one before the verdict. -/
def Config.after : Nat → Config → Config
  | 0, c => c
  | n + 1, c =>
    match step c with
    | .ok (.next d) => d.after n
    | _ => c

theorem after_reached (n : Nat) : ∀ {c : Config}, Relation.ReflTransGen Steps c (c.after n) := by
  induction n with
  | zero => exact .refl
  | succ n ih =>
    intro c
    rw [Config.after]
    split
    · next onward => exact .head onward ih
    · exact .refl

/-- `((a?|b)*c)*`, with a group in a group. -/
def groupInGroup : Pattern :=
  let a : Term := .guard (.item ⟨.literal 'a', "a"⟩) ⟨0, some 1⟩ "a?"
  let b : Term := .guard (.item ⟨.literal 'b', "b"⟩) .once "b"
  let c : Term := .guard (.item ⟨.literal 'c', "c"⟩) .once "c"
  ⟨[[.group [[.group [[a], [b]] "a?|b" ⟨0, none⟩ "(a?|b)*c", c]] "(a?|b)*c" ⟨0, none⟩
    "((a?|b)*c)*"]], "((a?|b)*c)*"⟩

/-- After forty steps, in the second iteration of the outer group, frames have piled up, but no
continuation is longer than before. -/
theorem continuations_within_depth_inside : ∃ c,
    Reached groupInGroup #['a', 'c', 'b', 'a', 'c'] c ∧ groupInGroup.depth = 2 ∧
      c.continuations.map List.length = [3, 3, 2, 2, 3, 2, 2, 1, 2, 3, 2, 1] ∧
      ∀ cont ∈ c.continuations, cont.length ≤ 3 :=
  ⟨(initial groupInGroup #['a', 'c', 'b', 'a', 'c']).after 40, after_reached 40, by decide,
    by cbv, continuations_within_depth (after_reached 40)⟩

end Backtrack

end WholeMatch
