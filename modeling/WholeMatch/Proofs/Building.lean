import WholeMatch.Proofs.Grouping
import WholeMatch.Proofs.Stepping

namespace WholeMatch

theorem getElem?_of_lookup {α : Type} {table : Array α} {i : Nat} {a : α}
    (h : lookup table i = .ok a) : table[i]? = some a := by
  unfold lookup at h
  split at h
  · next found =>
    cases h
    exact found
  · cases h

/-- States that were put into a group for a label have a guard. -/
def Guarded (n : Nfa) (gs : List Group) : Prop :=
  ∀ label s, InGroup gs (some label) s → ∃ guard, n.guardOf s = .ok (some guard)

namespace Guarded

variable {n : Nfa} {gs : List Group} {t : Nat}

theorem tail {g : Group} (h : Guarded n (g :: gs)) : Guarded n gs :=
  fun label s ⟨g', hg, there⟩ => h label s ⟨g', List.mem_cons_of_mem g hg, there⟩

theorem free (h : Guarded n gs) : Guarded n (addToGroup none t gs) := by
  intro label s hs
  rcases inGroup_addToGroup.mp hs with old | ⟨new, _⟩
  · exact h label s old
  · cases new

theorem labelled (h : Guarded n gs) {guard : Guard} (ht : n.guardOf t = .ok (some guard)) :
    Guarded n (addToGroup (some guard.label) t gs) := by
  intro label s hs
  rcases inGroup_addToGroup.mp hs with old | ⟨_, rfl⟩
  · exact h label s old
  · exact ⟨guard, ht⟩

end Guarded

theorem groupsFrom_guarded {n : Nfa} {targets stack : List Nat} {seen seen' : IndexSet}
    {gs gs' : List Group} (before : Guarded n gs)
    (h : n.groupsFrom targets stack seen gs = .ok (gs', seen')) : Guarded n gs' := by
  fun_induction Nfa.groupsFrom n targets stack seen gs with
  | case1 seen gs =>
    cases h
    exact before
  | case2 | case4 | case6 => cases h
  | case3 seen gs id stack targets _ ih => exact ih before h
  | case5 seen gs stack target targets guard hg ih => exact ih (before.labelled hg) h
  | case7 =>
    rename_i ih
    exact ih before h
  | case8 =>
    rename_i id _ _ after _ _ groups ih
    refine ih ?_ h
    unfold groups
    split
    · exact before.free
    · exact before

/-- The id of a guard that was looked up is one that the table has. -/
theorem lt_of_guardOf {n : Nfa} {s : Nat} {guard : Guard} {state : State} {g : Nat}
    (hs : n.arena.state s = .ok state) (hg : state.guard = some g)
    (h : n.guardOf s = .ok (some guard)) : g < n.guards.size := by
  rw [Nfa.guardOf, hs, ok_bind, hg] at h
  obtain ⟨known, hl, _⟩ := bind_eq_ok.mp h
  exact (Array.getElem?_eq_some_iff.mp (getElem?_of_lookup hl)).1

namespace Subsets

/-- The ids that a composite holds are below the sizes of two tables, and those of its edges are
words. -/
structure Bounded (size guards : Nat) (c : Composite) : Prop where
  edges : ∀ t ∈ c.edges, t < size
  words : ∀ t ∈ c.edges, t < words
  guard : ∀ g, c.guard = some g → g < guards

/-- All composites hold ids of their table and of one of guards, and the index holds words. -/
structure Sound (guards : Nat) (s : Subsets) : Prop where
  bounded : ∀ c ∈ s.composites, Bounded s.composites.size guards c
  listed : ∀ hash, ∀ id ∈ s.index.getD hash [], id < words

variable {guards : Nat} {cs : Array Composite} {s s' : Subsets} {n : Nfa}

theorem Bounded.mono {size size' : Nat} {c : Composite} (h : Bounded size guards c)
    (le : size ≤ size') : Bounded size' guards c :=
  { h with edges := fun t ht => Nat.lt_of_lt_of_le (h.edges t ht) le }

theorem Sound.push (h : Sound guards s) {c : Composite} (untied : c.edges = [])
    (known : ∀ g, c.guard = some g → g < guards) {id : Nat} (hid : id < words) (hash : UInt64) :
    Sound guards ⟨s.composites.push c, s.index.insert hash (s.index.getD hash [] ++ [id])⟩ where
  bounded c' hc := by
    rw [Array.size_push]
    rcases Array.mem_push.mp hc with old | rfl
    · exact (h.bounded c' old).mono (Nat.le_succ _)
    · exact ⟨by simp [untied], by simp [untied], known⟩
  listed hash' i hi := by
    rw [Std.HashMap.getD_insert] at hi
    split at hi
    · rcases List.mem_append.mp hi with old | new
      · exact h.listed _ i old
      · rwa [List.mem_singleton.mp new]
    · exact h.listed hash' i hi

theorem Sound.set (h : Sound guards s) {i : Nat} {c : Composite} (hi : i < s.composites.size)
    (bounded : Bounded s.composites.size guards c) :
    Sound guards ⟨s.composites.set i c hi, s.index⟩ where
  bounded c' hc := by
    rw [Array.size_set]
    have hc : c' ∈ s.composites.set i c hi := hc
    rcases Array.mem_or_eq_of_mem_set hc with old | rfl
    · exact h.bounded c' old
    · exact bounded
  listed := h.listed

theorem lt_of_find {members bucket : List Nat} {t : Nat}
    (h : find cs members bucket = .ok (some t)) : t ∈ bucket ∧ t < cs.size := by
  induction bucket with
  | nil => cases h
  | cons id bucket ih =>
    rw [find] at h
    obtain ⟨c, hc, h⟩ := bind_eq_ok.mp h
    split at h
    · cases h
      exact ⟨List.mem_cons_self .., (Array.getElem?_eq_some_iff.mp (getElem?_of_lookup hc)).1⟩
    · exact (ih h).imp_left (List.mem_cons_of_mem id)

theorem intern_sound {accept t : Nat} {guard : Option Nat} {states : List Nat}
    (before : Sound guards s) (known : ∀ g, guard = some g → g < guards)
    (h : s.intern accept guard states = .ok (t, s')) :
    Sound guards s' ∧ t < s'.composites.size ∧ t < words ∧
      s.composites.size ≤ s'.composites.size := by
  rw [intern] at h
  obtain ⟨found, hf, h⟩ := bind_eq_ok.mp h
  cases found with
  | some id =>
    cases h
    obtain ⟨there, lt⟩ := lt_of_find hf
    exact ⟨before, lt, before.listed _ _ there, Nat.le_refl _⟩
  | none =>
    cases h
    have place : word s.composites.size ≤ s.composites.size := Nat.mod_le _ _
    refine ⟨before.push rfl known (word_lt _) _, ?_, word_lt _, by simp⟩
    rw [Array.size_push]
    exact Nat.lt_succ_of_le place

theorem connect_sound {source target : Nat} (before : Sound guards s)
    (room : target < s.composites.size) (fits : target < words)
    (h : s.connect source target = .ok s') :
    Sound guards s' ∧ s'.composites.size = s.composites.size := by
  rw [connect] at h
  obtain ⟨c, hc, h⟩ := bind_eq_ok.mp h
  obtain ⟨cs', hs, h⟩ := bind_eq_ok.mp h
  cases h
  have here := getElem?_of_lookup hc
  have bounded := before.bounded c (Array.mem_of_getElem? here)
  have inside := (Array.getElem?_eq_some_iff.mp here).1
  rw [store_of_lt inside] at hs
  cases hs
  refine ⟨before.set inside ⟨fun t ht => ?_, fun t ht => ?_, bounded.guard⟩, Array.size_set inside⟩
  · rcases mem_addNew.mp ht with old | rfl
    · exact bounded.edges t old
    · exact room
  · rcases mem_addNew.mp ht with old | rfl
    · exact bounded.words t old
    · exact fits

/-- The guard of a group is that of one of its states, and was looked up. -/
theorem addEdges_guard {id : Nat} {g : Group} {gs : List Group} (guarded : Guarded n (g :: gs))
    (h : addEdges n id (g :: gs) s = .ok s') :
    ∃ guard, (∀ k, guard = some k → k < n.guards.size) ∧ (do
      let (target, s) ← s.intern n.accept guard g.states
      addEdges n id gs (← s.connect id target)) = .ok s' := by
  rw [addEdges] at h
  split at h
  · exact ⟨none, by simp, h⟩
  · next label first states named listed =>
    obtain ⟨state, hs, h⟩ := bind_eq_ok.mp h
    refine ⟨state.guard, fun k hk => ?_, h⟩
    have member : first ∈ g.states := listed ▸ List.mem_cons_self ..
    obtain ⟨own, ho⟩ := guarded label first ⟨g, List.mem_cons_self .., named, member⟩
    exact lt_of_guardOf hs hk ho
  · cases h

theorem addEdges_sound (gs : List Group) (guarded : Guarded n gs) (id : Nat) :
    ∀ {s s' : Subsets}, Sound n.guards.size s → addEdges n id gs s = .ok s' →
      Sound n.guards.size s' ∧ s.composites.size ≤ s'.composites.size := by
  induction gs with
  | nil =>
    intro s s' before h
    cases h
    exact ⟨before, Nat.le_refl _⟩
  | cons g gs ih =>
    intro s s' before h
    obtain ⟨guard, known, h⟩ := addEdges_guard guarded h
    obtain ⟨⟨target, s₁⟩, hi, h⟩ := bind_eq_ok.mp h
    obtain ⟨s₂, hc, h⟩ := bind_eq_ok.mp h
    obtain ⟨sound₁, room, fits, le₁⟩ := intern_sound before known hi
    obtain ⟨sound₂, size₂⟩ := connect_sound sound₁ room fits hc
    obtain ⟨sound', le'⟩ := ih guarded.tail sound₂ h
    exact ⟨sound', by omega⟩

theorem completeOne_sound {id : Nat} {seen seen' : IndexSet} (before : Sound n.guards.size s)
    (h : completeOne n id s seen = .ok (s', seen')) :
    Sound n.guards.size s' ∧ s.composites.size ≤ s'.composites.size := by
  obtain ⟨c, _, h⟩ := bind_eq_ok.mp h
  obtain ⟨⟨gs, _⟩, hg, h⟩ := bind_eq_ok.mp h
  obtain ⟨s₁, ha, h⟩ := bind_eq_ok.mp h
  cases h
  have guarded : Guarded n gs := groupsFrom_guarded (fun _ _ ⟨_, old, _⟩ => nomatch old) hg
  exact addEdges_sound gs guarded id before ha

/-- Whatever is completed is sound. -/
theorem complete_sound (fuel : Nat) : ∀ {turn : Nat} {s : Subsets} {seen : IndexSet},
    Sound n.guards.size s → complete n fuel turn s seen = .ok cs →
    (∀ c ∈ cs, Bounded cs.size n.guards.size c) ∧ s.composites.size ≤ cs.size := by
  induction fuel with
  | zero => exact fun _ h => nomatch h
  | succ fuel ih =>
    intro turn s seen before h
    rw [complete] at h
    split at h
    · obtain ⟨⟨s₁, seen'⟩, hc, h⟩ := bind_eq_ok.mp h
      obtain ⟨sound₁, le₁⟩ := completeOne_sound before hc
      obtain ⟨bounded, le⟩ := ih sound₁ h
      exact ⟨bounded, Nat.le_trans le₁ le⟩
    · cases h
      exact ⟨before.bounded, Nat.le_refl _⟩

end Subsets

/-- What is built holds ids of its tables only. -/
theorem ofNfa_bounded {n : Nfa} {d : Dfa} (h : Dfa.ofNfa n = .ok d) :
    0 < d.size ∧ d.guards = n.guards ∧
      ∀ c ∈ d.composites, Subsets.Bounded d.size n.guards.size c := by
  rw [Dfa.ofNfa] at h
  obtain ⟨⟨t, s⟩, hi, h⟩ := bind_eq_ok.mp h
  obtain ⟨cs, hc, h⟩ := bind_eq_ok.mp h
  cases h
  have empty : Subsets.Sound n.guards.size ⟨#[], ∅⟩ := ⟨by simp, by simp⟩
  obtain ⟨first, room, _⟩ := Subsets.intern_sound empty (by simp) hi
  obtain ⟨bounded, le⟩ := Subsets.complete_sound _ first hc
  exact ⟨Nat.lt_of_le_of_lt (Nat.zero_le t) (Nat.lt_of_lt_of_le room le), rfl, bounded⟩

/-- **What the subset construction builds is valid**, whatever it is built from. -/
theorem ofNfa_valid {n : Nfa} {d : Dfa} (h : Dfa.ofNfa n = .ok d) : d.Valid := by
  obtain ⟨some, guards, bounded⟩ := ofNfa_bounded h
  constructor
  case root => exact some
  case edges =>
    intro id t ht
    obtain ⟨c, hc, ht⟩ := Dfa.exists_edge ht
    exact (bounded c (Array.mem_of_getElem? hc)).edges t ht
  case guards =>
    intro id c g hc hg
    exact guards ▸ (bounded c (Array.mem_of_getElem? hc)).guard g hg

end WholeMatch
