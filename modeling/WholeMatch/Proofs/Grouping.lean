import Mathlib.Data.List.Nodup
import WholeMatch.Dfa.Subset
import WholeMatch.Proofs.Graphs
import WholeMatch.Proofs.Members

namespace WholeMatch

/-- An edge to a state without a guard. -/
def Graph.Open (g : Graph) (s t : Nat) : Prop := t ∈ g.targets s ∧ g.guard t = none

/-- The states that edges to states without a guard lead to. -/
def Graph.Spread (g : Graph) (members : List Nat) (s : Nat) : Prop :=
  ∃ m ∈ members, Relation.ReflTransGen g.Open m s

/-- A state is in the group of a label. -/
def InGroup (gs : List Group) (label : Option String) (s : Nat) : Prop :=
  ∃ g ∈ gs, g.label = label ∧ s ∈ g.states

/-- Every label has one group, which has a state, and none twice. -/
structure WellGrouped (gs : List Group) : Prop where
  labels : (gs.map (·.label)).Nodup
  states : ∀ g ∈ gs, g.states ≠ [] ∧ g.states.Nodup

variable {gs gs' : List Group} {label : Option String} {s t : Nat}

theorem inGroup_addToGroup {l : Option String} :
    InGroup (addToGroup l t gs) label s ↔ InGroup gs label s ∨ label = l ∧ s = t := by
  induction gs with
  | nil =>
    simp only [addToGroup, InGroup, List.mem_singleton, exists_eq_left, List.not_mem_nil,
      false_and, exists_false, false_or, eq_comm]
  | cons g gs ih =>
    rw [addToGroup]
    split
    · next same =>
      subst same
      simp only [InGroup, List.mem_cons, exists_eq_or_imp, mem_addNew, eq_comm (a := label)]
      rw [and_or_left, or_right_comm]
    · simp only [InGroup, List.mem_cons, exists_eq_or_imp] at ih ⊢
      rw [ih, or_assoc]

theorem labels_addToGroup {l : Option String} :
    (addToGroup l t gs).map (·.label) = addNew (gs.map (·.label)) l := by
  induction gs with
  | nil => rfl
  | cons g gs ih =>
    rw [addToGroup]
    split
    · next same => simp [addNew, same]
    · next other =>
      rw [List.map_cons, ih, List.map_cons]
      unfold addNew
      simp only [List.contains_cons]
      have : (l == g.label) = false := by simpa using Ne.symm other
      rw [this, Bool.false_or]
      split <;> rfl

theorem WellGrouped.add {l : Option String} (h : WellGrouped gs) :
    WellGrouped (addToGroup l t gs) := by
  refine ⟨labels_addToGroup ▸ nodup_addNew h.labels, ?_⟩
  have states := h.states
  clear h
  induction gs with
  | nil => simp [addToGroup]
  | cons g gs ih =>
    obtain ⟨hg, hgs⟩ := List.forall_mem_cons.mp states
    rw [addToGroup]
    split
    · refine List.forall_mem_cons.mpr ⟨⟨?_, nodup_addNew hg.2⟩, hgs⟩
      exact List.ne_nil_of_mem (mem_addNew.mpr (.inr rfl))
    · exact List.forall_mem_cons.mpr ⟨hg, ih hgs⟩

/-- The group of a label holds all that is in the group of the label. -/
theorem WellGrouped.mem_states (h : WellGrouped gs) {g : Group} (hg : g ∈ gs) :
    s ∈ g.states ↔ InGroup gs g.label s := by
  constructor
  · exact fun hs => ⟨g, hg, rfl, hs⟩
  · rintro ⟨g', hg', same, hs⟩
    exact List.inj_on_of_nodup_map h.labels hg' hg same ▸ hs

namespace Nfa

variable {n : Nfa}

/-- The label under which a state is entered: that of its guard, or none for the accepting state
when it has no guard. -/
def Labels (n : Nfa) (label : Option String) (s : Nat) : Prop :=
  match n.graph.guard s with
  | some guard => label = some guard.label
  | none => label = none ∧ s = n.accept

/-- What is entered next from a set of states under a label. -/
def Grouped (n : Nfa) (members : List Nat) (label : Option String) (s : Nat) : Prop :=
  n.graph.Beside (n.graph.Spread members) s ∧ n.Labels label s

/-- A target was seen, or put into the group of its label. -/
def Met (n : Nfa) (l : List Nat) (gs : List Group) (t : Nat) : Prop :=
  match n.graph.guard t with
  | none => t ∈ l
  | some guard => InGroup gs (some guard.label) t

/-- What an expansion of the targets and the stack leaves behind, with `l` seen and the groups
`gs` before. -/
structure Gathers (n : Nfa) (Near : Nat → Prop) (targets stack l : List Nat) (gs : List Group)
    (gs' : List Group) (seen' : IndexSet) (l' : List Nat) : Prop where
  seen : seen'.Lists n.size l'
  keeps : l ⊆ l'
  wellGrouped : WellGrouped gs → WellGrouped gs'
  old : ∀ label s, InGroup gs label s → InGroup gs' label s
  sound : ∀ label s, InGroup gs' label s →
    InGroup gs label s ∨ n.graph.Beside Near s ∧ n.Labels label s
  entered : (∀ t ∈ targets, n.Met l' gs' t) ∧ ∀ s ∈ stack, ∀ t ∈ n.graph.targets s, n.Met l' gs' t
  complete : ∀ s ∈ l', s ∉ l → (∀ t ∈ n.graph.targets s, n.Met l' gs' t) ∧
    (s = n.accept → InGroup gs' none s)

namespace Gathers

variable {Near : Nat → Prop} {targets stack l : List Nat} {seen' : IndexSet} {l' : List Nat}
  {target : Nat}

/-- A target with a guard is put into the group of its label. -/
theorem guarded {guard : Guard}
    (h : n.Gathers Near targets stack l (addToGroup (some guard.label) target gs) gs' seen' l')
    (hg : n.graph.guard target = some guard) (near : n.graph.Beside Near target) :
    n.Gathers Near (target :: targets) stack l gs gs' seen' l' := by
  have met : n.Met l' gs' target := by
    simp only [Met, hg]
    exact h.old _ _ (inGroup_addToGroup.mpr (.inr ⟨rfl, rfl⟩))
  refine { h with
    wellGrouped := fun w => h.wellGrouped w.add
    old := fun label s hs => h.old label s (inGroup_addToGroup.mpr (.inl hs))
    sound := fun label s hs => ?_
    entered := ⟨List.forall_mem_cons.mpr ⟨met, h.entered.1⟩, h.entered.2⟩ }
  rcases h.sound label s hs with old | new
  · rcases inGroup_addToGroup.mp old with old | ⟨rfl, rfl⟩
    · exact .inl old
    · exact .inr ⟨near, by simp [Labels, hg]⟩
  · exact .inr new

theorem known (h : n.Gathers Near targets stack l gs gs' seen' l')
    (hg : n.graph.guard target = none) (hl : target ∈ l) :
    n.Gathers Near (target :: targets) stack l gs gs' seen' l' := by
  have met : n.Met l' gs' target := by
    simp only [Met, hg]
    exact h.keeps hl
  exact { h with entered := ⟨List.forall_mem_cons.mpr ⟨met, h.entered.1⟩, h.entered.2⟩ }

/-- A target without a guard that was not seen before is put on the stack, and into a group of its
own if it accepts. -/
theorem fresh
    (h : n.Gathers Near targets (target :: stack) (l ++ [target])
      (if target = n.accept then addToGroup none target gs else gs) gs' seen' l')
    (hg : n.graph.guard target = none) (near : n.graph.Beside Near target) :
    n.Gathers Near (target :: targets) stack l gs gs' seen' l' := by
  have inside : target ∈ l' := h.keeps (by simp)
  have met : n.Met l' gs' target := by simpa only [Met, hg] using inside
  obtain ⟨stacked, entered⟩ := List.forall_mem_cons.mp h.entered.2
  refine ⟨h.seen, List.Subset.trans (List.subset_append_left _ _) h.keeps,
    fun w => h.wellGrouped ?_, fun label s hs => h.old label s ?_, fun label s hs => ?_,
    ⟨List.forall_mem_cons.mpr ⟨met, h.entered.1⟩, entered⟩, fun s hs old => ?_⟩
  · split
    · exact w.add
    · exact w
  · split
    · exact inGroup_addToGroup.mpr (.inl hs)
    · exact hs
  · rcases h.sound label s hs with old | new
    · split at old
      · next accepting =>
        rcases inGroup_addToGroup.mp old with old | ⟨rfl, rfl⟩
        · exact .inl old
        · refine .inr ⟨near, ?_⟩
          rw [Labels, hg]
          exact ⟨rfl, accepting⟩
      · exact .inl old
    · exact .inr new
  · by_cases same : s = target
    · subst same
      refine ⟨stacked, fun accepting => h.old _ _ ?_⟩
      rw [if_pos accepting]
      exact inGroup_addToGroup.mpr (.inr ⟨rfl, rfl⟩)
    · exact h.complete s hs (by simp [old, same])

end Gathers

/-- **An expansion gathers what is entered next.** -/
theorem groupsFrom_gathers (v : n.Valid) {Near : Nat → Prop}
    (closed : ∀ s t, Near s → n.graph.Open s t → Near t) (targets stack : List Nat)
    (seen : IndexSet) (groups : List Group) : ∀ {l : List Nat}, seen.Lists n.size l →
    (∀ t ∈ targets, t < n.size ∧ n.graph.Beside Near t) → (∀ s ∈ stack, s < n.size ∧ Near s) →
    ∃ gs' seen' l', n.groupsFrom targets stack seen groups = .ok (gs', seen') ∧
      n.Gathers Near targets stack l groups gs' seen' l' := by
  fun_induction Nfa.groupsFrom n targets stack seen groups with
  | case1 seen groups =>
    intro l hseen _ _
    exact ⟨groups, seen, l, rfl, hseen, List.Subset.refl l, id, fun _ _ => id,
      fun _ _ => .inl, by simp, fun s hs new => absurd hs new⟩
  | case2 seen groups id stack f he =>
    intro l _ _ hstack
    rw [edges_eq (hstack id (by simp)).1] at he
    cases he
  | case3 seen groups id stack targets he ih =>
    intro l hseen _ hstack
    obtain ⟨⟨hid, near⟩, hstack⟩ := List.forall_mem_cons.mp hstack
    rw [edges_eq hid] at he
    cases he
    obtain ⟨gs', seen', l', hg, h⟩ := ih hseen (fun t ht => ⟨v.edges id t ht, id, near, ht⟩) hstack
    exact ⟨gs', seen', l', hg, { h with
      entered := ⟨by simp, List.forall_mem_cons.mpr h.entered⟩ }⟩
  | case4 stack seen groups target targets f he =>
    intro l _ htargets _
    rw [v.guardOf_eq (htargets target (by simp)).1] at he
    cases he
  | case5 stack seen groups target targets guard he ih =>
    intro l hseen htargets hstack
    obtain ⟨⟨ht, near⟩, htargets⟩ := List.forall_mem_cons.mp htargets
    rw [v.guardOf_eq ht, Except.ok.injEq] at he
    obtain ⟨gs', seen', l', hg, h⟩ := ih hseen htargets hstack
    exact ⟨gs', seen', l', hg, h.guarded he near⟩
  | case6 stack seen groups target targets hg f he =>
    intro l hseen htargets _
    exact absurd he (hseen.insert_ne_error (htargets target (by simp)).1)
  | case7 stack groups target targets hg after he ih =>
    intro l hseen htargets hstack
    obtain ⟨⟨ht, _⟩, htargets⟩ := List.forall_mem_cons.mp htargets
    rw [v.guardOf_eq ht, Except.ok.injEq] at hg
    obtain ⟨known, hseen'⟩ := hseen.insert_known ht he
    obtain ⟨gs', seen', l', hgs, h⟩ := ih hseen' htargets hstack
    exact ⟨gs', seen', l', hgs, h.known hg known⟩
  | case8 stack seen groups target targets hg after he room groups' =>
    rename_i ih
    have now : groups' = if target = n.accept then addToGroup none target groups else groups := rfl
    clear_value groups'
    subst now
    intro l hseen htargets hstack
    obtain ⟨⟨ht, near⟩, htargets⟩ := List.forall_mem_cons.mp htargets
    rw [v.guardOf_eq ht, Except.ok.injEq] at hg
    have here : Near target := by
      obtain ⟨s, hs, edge⟩ := near
      exact closed s target hs ⟨edge, hg⟩
    obtain ⟨_, hseen'⟩ := hseen.insert_new ht he
    obtain ⟨gs', seen', l', hgs, h⟩ := ih hseen' htargets
      (List.forall_mem_cons.mpr ⟨⟨ht, here⟩, hstack⟩)
    exact ⟨gs', seen', l', hgs, h.fresh hg near⟩

/-- **The groups of a set of states** hold what is entered next from it. -/
theorem gather_spec (v : n.Valid) {members : List Nat} (inside : ∀ m ∈ members, m < n.size)
    {seen : IndexSet} (hseen : seen.Lists n.size []) :
    ∃ gs seen' l, n.groupsFrom [] members.reverse seen [] = .ok (gs, seen') ∧
      seen'.Lists n.size l ∧ WellGrouped gs ∧
      ∀ label s, InGroup gs label s ↔ n.Grouped members label s := by
  have closed : ∀ s t, n.graph.Spread members s → n.graph.Open s t → n.graph.Spread members t := by
    rintro s t ⟨m, hm, frees⟩ edge
    exact ⟨m, hm, frees.tail edge⟩
  obtain ⟨gs, seen', l, hg, h⟩ := groupsFrom_gathers v closed [] members.reverse seen [] hseen
    (by simp) (fun m hm => ⟨inside m (List.mem_reverse.mp hm), m, List.mem_reverse.mp hm, .refl⟩)
  refine ⟨gs, seen', l, hg, h.seen, h.wellGrouped ⟨List.nodup_nil, by simp⟩, fun label t => ?_⟩
  constructor
  · intro ht
    exact (h.sound label t ht).resolve_left (by simp [InGroup])
  · rintro ⟨⟨s, ⟨m, hm, frees⟩, edge⟩, labels⟩
    -- whatever an open edge leads to was seen, so its targets were met in turn
    have met : ∀ u ∈ n.graph.targets s, n.Met l gs u := by
      clear edge
      induction frees with
      | refl => exact h.entered.2 m (List.mem_reverse.mpr hm)
      | tail _ step ih =>
        have seen := ih _ step.1
        simp only [Met, step.2] at seen
        exact (h.complete _ seen (by simp)).1
    have here := met t edge
    unfold Met at here
    unfold Labels at labels
    split at labels
    · next guard hg =>
      rw [hg] at here
      rw [labels]
      exact here
    · next hg =>
      rw [hg] at here
      rw [labels.1]
      exact (h.complete t here (by simp)).2 labels.2

end Nfa

end WholeMatch
