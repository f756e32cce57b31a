import WholeMatch.Nfa.Simulate
import WholeMatch.Proofs.Graphs
import WholeMatch.Proofs.Members

namespace WholeMatch

namespace Nfa

variable {n : Nfa} {text : Array Char} {place : Cursor}

/-- How a state can be entered is what its guard answers at the place. -/
theorem entry_eq (v : n.Valid) (hp : n.Plain) (hplace : (Cursor.ofText text).Leads place) {id : Nat}
    (h : id < n.size) : ∃ e, n.entry place id = .ok e ∧
      ∀ q, n.graph.Enters text id place.pos q ↔
        e = .free ∧ q = place.pos ∨ e = .consuming ∧ q = place.pos + 1 := by
  rw [entry, v.guardOf_eq h, ok_bind]
  cases hg : n.graph.guard id with
  | none => exact ⟨.free, rfl, by simp [Graph.enters_of_guard_none hg]⟩
  | some guard =>
    obtain ⟨hit, next, ha, spans⟩ := Guard.attempt_answers (hp.guard hg) hplace
    simp only [ha, ok_bind, Graph.enters_of_guard hg, spans]
    cases hit with
    | false => exact ⟨.closed, rfl, by simp⟩
    | true =>
      cases width : guard.zeroWidth with
      | true => exact ⟨.free, rfl, by simp⟩
      | false => exact ⟨.consuming, rfl, by simp⟩

theorem entry_enters (v : n.Valid) (hp : n.Plain) (hplace : (Cursor.ofText text).Leads place)
    {id : Nat} (h : id < n.size) {e : Entry} (he : n.entry place id = .ok e) (q : Nat) :
    n.graph.Enters text id place.pos q ↔
      e = .free ∧ q = place.pos ∨ e = .consuming ∧ q = place.pos + 1 := by
  obtain ⟨e', he', enters⟩ := entry_eq v hp hplace h
  rw [he'] at he
  cases he
  exact enters q

/-- The states that are expanded: with one of them all that it leads to without reading. -/
def Closed (n : Nfa) (text : Array Char) (p : Nat) (Near : Nat → Prop) : Prop :=
  ∀ s t, Near s → n.graph.Free text p s t → Near t

/-- What an expansion of the targets and the stack leaves behind, with `l` seen before and `l'`
after, `m` the next frontier before and `m'` after. -/
structure Expands (n : Nfa) (text : Array Char) (p : Nat) (Near : Nat → Prop) (goal : Option Nat)
    (targets stack l m : List Nat) (w : Walk) (l' m' : List Nat) : Prop where
  seen : w.seen.Lists n.size l'
  next : w.next.Lists n.size m'
  keeps : l ⊆ l' ∧ m ⊆ m'
  sound : ∀ t ∈ l', t ∈ l ∨ n.graph.Beside Near t
  reads : ∀ t ∈ m', t ∈ m ∨ t ∈ l' ∧ n.graph.Enters text t p (p + 1)
  found : w.found = true → ∃ t q, goal = some t ∧ n.graph.Beside Near t ∧ n.graph.Enters text t p q
  entered : w.found = false → targets ⊆ l' ∧ ∀ s ∈ stack, n.graph.targets s ⊆ l'
  complete : w.found = false → ∀ t ∈ l', t ∉ l →
    (n.graph.Enters text t p p → n.graph.targets t ⊆ l') ∧
    (n.graph.Enters text t p (p + 1) → t ∈ m') ∧ ∀ q, n.graph.Enters text t p q → goal ≠ some t

namespace Expands

variable {p : Nat} {Near : Nat → Prop} {goal : Option Nat} {targets stack l m l' m' : List Nat}
  {w : Walk} {target : Nat}

theorem known (h : n.Expands text p Near goal targets stack l m w l' m') (hl : target ∈ l) :
    n.Expands text p Near goal (target :: targets) stack l m w l' m' :=
  { h with
    entered := fun lost =>
      ⟨List.cons_subset.mpr ⟨h.keeps.1 hl, (h.entered lost).1⟩, (h.entered lost).2⟩ }

/-- A target that was not seen before is tried: a free one is put on the stack, one that reads into
the next frontier. -/
theorem tried {stack₁ m₁ : List Nat}
    (h : n.Expands text p Near goal targets stack₁ (l ++ [target]) m₁ w l' m')
    (near : n.graph.Beside Near target) (hstack : stack ⊆ stack₁) (hm : m ⊆ m₁)
    (only : ∀ t ∈ m₁, t ∈ m ∨ t = target ∧ n.graph.Enters text target p (p + 1))
    (free : n.graph.Enters text target p p → target ∈ stack₁)
    (consuming : n.graph.Enters text target p (p + 1) → target ∈ m₁)
    (other : ∀ q, n.graph.Enters text target p q → goal ≠ some target) :
    n.Expands text p Near goal (target :: targets) stack l m w l' m' := by
  have inside : target ∈ l' := h.keeps.1 (by simp)
  refine ⟨h.seen, h.next, ⟨?_, List.Subset.trans hm h.keeps.2⟩, fun t ht => ?_,
    fun t ht => ?_, h.found,
    fun lost => ?_, fun lost t ht new => ?_⟩
  · exact List.Subset.trans (List.subset_append_left _ _) h.keeps.1
  · rcases h.sound t ht with old | near'
    · rcases List.mem_append.mp old with old | same
      · exact .inl old
      · rw [List.mem_singleton.mp same]
        exact .inr near
    · exact .inr near'
  · rcases h.reads t ht with old | new
    · rcases only t old with old | ⟨rfl, reads⟩
      · exact .inl old
      · exact .inr ⟨inside, reads⟩
    · exact .inr new
  · obtain ⟨hts, hss⟩ := h.entered lost
    exact ⟨List.cons_subset.mpr ⟨inside, hts⟩, fun s hs => hss s (hstack hs)⟩
  · by_cases same : t = target
    · subst same
      exact ⟨fun hf => (h.entered lost).2 t (free hf), fun hc => h.keeps.2 (consuming hc), other⟩
    · exact h.complete lost t ht (by simp [new, same])

/-- The walk ends with the goal. -/
theorem goal_found {seen next : IndexSet} (hseen : seen.Lists n.size (l ++ [target]))
    (hnext : next.Lists n.size m) (near : n.graph.Beside Near target) {q : Nat}
    (enters : n.graph.Enters text target p q) :
    n.Expands text p Near (some target) (target :: targets) stack l m ⟨seen, next, true⟩
      (l ++ [target]) m where
  seen := hseen
  next := hnext
  keeps := ⟨List.subset_append_left _ _, fun _ => id⟩
  sound t ht := by
    rcases List.mem_append.mp ht with old | same
    · exact .inl old
    · rw [List.mem_singleton.mp same]
      exact .inr near
  reads t ht := .inl ht
  found _ := ⟨target, q, rfl, near, enters⟩
  entered wrong := by cases wrong
  complete wrong := by cases wrong

end Expands

/-- **An expansion sees what is beside the states it expands.** -/
theorem walk_expands (v : n.Valid) (hp : n.Plain) (hplace : (Cursor.ofText text).Leads place)
    {Near : Nat → Prop} (closed : n.Closed text place.pos Near) (goal : Option Nat)
    (targets stack : List Nat) (seen next : IndexSet) : ∀ {l m : List Nat},
    seen.Lists n.size l → next.Lists n.size m →
    (∀ t ∈ targets, t < n.size ∧ n.graph.Beside Near t) → (∀ s ∈ stack, s < n.size ∧ Near s) →
    ∃ w l' m', n.walk place goal targets stack seen next = .ok w ∧
      n.Expands text place.pos Near goal targets stack l m w l' m' := by
  fun_induction Nfa.walk n place goal targets stack seen next with
  | case1 seen next =>
    intro l m hseen hnext htargets hstack
    exact ⟨_, l, m, rfl, by constructor <;> simp_all⟩
  | case2 seen next id stack f he =>
    intro l m hseen hnext htargets hstack
    rw [edges_eq (hstack id (by simp)).1] at he
    cases he
  | case3 seen next id stack targets he ih =>
    intro l m hseen hnext htargets hstack
    obtain ⟨⟨hid, near⟩, hstack⟩ := List.forall_mem_cons.mp hstack
    rw [edges_eq hid] at he
    cases he
    obtain ⟨w, l', m', hw, h⟩ := ih hseen hnext
      (fun t ht => ⟨v.edges id t ht, id, near, ht⟩) hstack
    exact ⟨w, l', m', hw, { h with
      entered := fun lost => ⟨List.nil_subset _, List.forall_mem_cons.mpr (h.entered lost)⟩ }⟩
  | case4 stack seen next target targets f he =>
    intro l m hseen hnext htargets hstack
    exact absurd he (hseen.insert_ne_error (htargets target (by simp)).1)
  | case5 stack next target targets after he ih =>
    intro l m hseen hnext htargets hstack
    obtain ⟨⟨ht, _⟩, htargets⟩ := List.forall_mem_cons.mp htargets
    obtain ⟨w, l', m', hw, h⟩ := ih hseen hnext htargets hstack
    exact ⟨w, l', m', hw, h.known (hseen.insert_known ht he).1⟩
  | case6 stack seen next target targets after he room f hf =>
    intro l m hseen hnext htargets hstack
    obtain ⟨e, hentry, _⟩ := entry_eq v hp hplace (htargets target (by simp)).1
    rw [hentry] at hf
    cases hf
  | case7 stack seen next target targets after he room hentry ih =>
    intro l m hseen hnext htargets hstack
    obtain ⟨⟨ht, near⟩, htargets⟩ := List.forall_mem_cons.mp htargets
    have enters := entry_enters v hp hplace ht hentry
    obtain ⟨w, l', m', hw, h⟩ := ih (hseen.insert_new ht he).2 hnext htargets hstack
    exact ⟨w, l', m', hw, h.tried near (List.Subset.refl _) (List.Subset.refl _)
      (fun t => .inl) (by simp [enters]) (by simp [enters]) (by simp [enters])⟩
  | case8 stack seen next target targets after he room hentry goal =>
    intro l m hseen hnext htargets hstack
    obtain ⟨⟨ht, near⟩, _⟩ := List.forall_mem_cons.mp htargets
    have enters := (entry_enters v hp hplace ht hentry place.pos).mpr (.inl ⟨rfl, rfl⟩)
    subst goal
    exact ⟨_, _, m, rfl, .goal_found (hseen.insert_new ht he).2 hnext near enters⟩
  | case9 stack seen next target targets after he room hentry other ih =>
    intro l m hseen hnext htargets hstack
    obtain ⟨⟨ht, near⟩, htargets⟩ := List.forall_mem_cons.mp htargets
    have enters := entry_enters v hp hplace ht hentry
    obtain ⟨s, hs, hts⟩ := near
    have expanded := closed s target hs ⟨hts, (enters _).mpr (.inl ⟨rfl, rfl⟩)⟩
    obtain ⟨w, l', m', hw, h⟩ := ih (hseen.insert_new ht he).2 hnext htargets
      (List.forall_mem_cons.mpr ⟨⟨ht, expanded⟩, hstack⟩)
    exact ⟨w, l', m', hw, h.tried ⟨s, hs, hts⟩ (List.subset_cons_self _ _) (List.Subset.refl _)
      (fun t => .inl) (fun _ => by simp) (by simp [enters]) (fun _ _ => other)⟩
  | case10 stack seen next target targets after he room hentry goal =>
    intro l m hseen hnext htargets hstack
    obtain ⟨⟨ht, near⟩, _⟩ := List.forall_mem_cons.mp htargets
    have enters := (entry_enters v hp hplace ht hentry (place.pos + 1)).mpr (.inr ⟨rfl, rfl⟩)
    subst goal
    exact ⟨_, _, m, rfl, .goal_found (hseen.insert_new ht he).2 hnext near enters⟩
  | case11 stack seen next target targets after he room hentry other f hf =>
    intro l m hseen hnext htargets hstack
    exact absurd hf (hnext.insert_ne_error (htargets target (by simp)).1)
  | case12 stack seen next target targets after he room hentry other added next' hn ih =>
    intro l m hseen hnext htargets hstack
    obtain ⟨⟨ht, near⟩, htargets⟩ := List.forall_mem_cons.mp htargets
    have enters := entry_enters v hp hplace ht hentry
    obtain ⟨next'', hn', hnext'⟩ := hnext.insert_eq ht
    rw [hn'] at hn
    cases hn
    obtain ⟨w, l', m', hw, h⟩ := ih (hseen.insert_new ht he).2 hnext' htargets hstack
    refine ⟨w, l', m', hw, h.tried near (List.Subset.refl _) (fun t ht => mem_addNew.mpr (.inl ht))
      (fun t ht => ?_) (by simp [enters]) (fun _ => mem_addNew.mpr (.inr rfl)) (fun _ _ => other)⟩
    rcases mem_addNew.mp ht with old | rfl
    · exact .inl old
    · exact .inr ⟨rfl, by simp [enters]⟩

theorem closed_around (p : Nat) (ids : List Nat) : n.Closed text p (n.graph.Around text p ids) :=
  fun _ _ ⟨id, hid, frees⟩ free => ⟨id, hid, frees.tail free⟩

/-- What was seen so far is complete: all that is beside a state entered freely was seen too. -/
def Saturated (n : Nfa) (text : Array Char) (p : Nat) (l : List Nat) : Prop :=
  ∀ t ∈ l, n.graph.Enters text t p p → n.graph.targets t ⊆ l

theorem Saturated.around {p : Nat} {l : List Nat} (h : n.Saturated text p l) (ids : List Nat)
    (hids : ∀ id ∈ ids, n.graph.targets id ⊆ l) {s : Nat} (hs : n.graph.Around text p ids s) :
    n.graph.targets s ⊆ l := by
  obtain ⟨id, hid, frees⟩ := hs
  induction frees with
  | refl => exact hids id hid
  | tail _ free ih => exact h _ (ih free.1) free.2

theorem Expands.saturated {p : Nat} {Near : Nat → Prop} {goal : Option Nat}
    {targets stack l m l' m' : List Nat} {w : Walk}
    (h : n.Expands text p Near goal targets stack l m w l' m') (lost : w.found = false)
    (hl : n.Saturated text p l) : n.Saturated text p l' := by
  intro t ht enters
  by_cases old : t ∈ l
  · exact List.Subset.trans (hl t old enters) h.keeps.1
  · exact (h.complete lost t ht old).1 enters

/-- Expanding a frontier, one state after the other. -/
theorem walkAll_expands (v : n.Valid) (hp : n.Plain) (hplace : (Cursor.ofText text).Leads place)
    {Near : Nat → Prop} (closed : n.Closed text place.pos Near) (ids : List Nat) :
    ∀ {seen next : IndexSet} {l m : List Nat}, seen.Lists n.size l → next.Lists n.size m →
    (∀ id ∈ ids, id < n.size ∧ Near id) → n.Saturated text place.pos l →
    (∀ t ∈ l, n.graph.Beside Near t) →
    (∀ t, t ∈ m ↔ t ∈ l ∧ n.graph.Enters text t place.pos (place.pos + 1)) →
    ∃ seen' next' l' m', n.walkAll place ids seen next = .ok (seen', next') ∧
      seen'.Lists n.size l' ∧ next'.Lists n.size m' ∧ l ⊆ l' ∧ n.Saturated text place.pos l' ∧
      (∀ t ∈ l', n.graph.Beside Near t) ∧
      (∀ t, t ∈ m' ↔ t ∈ l' ∧ n.graph.Enters text t place.pos (place.pos + 1)) ∧
      ∀ id ∈ ids, n.graph.targets id ⊆ l' := by
  induction ids with
  | nil =>
    intro seen next l m hseen hnext _ saturated sound reads
    exact ⟨seen, next, l, m, rfl, hseen, hnext, List.Subset.refl l, saturated, sound, reads,
      by simp⟩
  | cons id ids ih =>
    intro seen next l m hseen hnext hids saturated sound reads
    obtain ⟨hid, hids⟩ := List.forall_mem_cons.mp hids
    obtain ⟨w, l₁, m₁, hw, h⟩ := walk_expands v hp hplace closed none [] [id] seen next
      hseen hnext (by simp) (by simpa using hid)
    have lost : w.found = false := Bool.eq_false_iff.mpr fun found => by
      obtain ⟨t, q, wrong, _⟩ := h.found found
      cases wrong
    have sound₁ : ∀ t ∈ l₁, n.graph.Beside Near t :=
      fun t ht => (h.sound t ht).elim (sound t) fun new => new
    have reads₁ : ∀ t, t ∈ m₁ ↔ t ∈ l₁ ∧ n.graph.Enters text t place.pos (place.pos + 1) := by
      intro t
      constructor
      · intro ht
        rcases h.reads t ht with old | new
        · exact ⟨h.keeps.1 ((reads t).mp old).1, ((reads t).mp old).2⟩
        · exact new
      · rintro ⟨ht, enters⟩
        by_cases old : t ∈ l
        · exact h.keeps.2 ((reads t).mpr ⟨old, enters⟩)
        · exact (h.complete lost t ht old).2.1 enters
    obtain ⟨seen', next', l', m', hall, hseen', hnext', grows, saturated', sound', reads', all⟩ :=
      ih h.seen h.next hids (h.saturated lost saturated) sound₁ reads₁
    refine ⟨seen', next', l', m', by rw [walkAll, hw, ok_bind, hall], hseen', hnext',
      List.Subset.trans h.keeps.1 grows, saturated', sound', reads',
      List.forall_mem_cons.mpr ⟨?_, all⟩⟩
    exact List.Subset.trans ((h.entered lost).2 id (by simp)) grows

/-- **The next frontier** is what the current one reads the character into. -/
theorem walkAll_next (v : n.Valid) (hp : n.Plain) (hplace : (Cursor.ofText text).Leads place)
    {ids : List Nat} (hids : ∀ id ∈ ids, id < n.size) {seen next : IndexSet}
    (hseen : seen.Lists n.size []) (hnext : next.Lists n.size []) :
    ∃ seen' next' l' m', n.walkAll place ids seen next = .ok (seen', next') ∧
      seen'.Lists n.size l' ∧ next'.Lists n.size m' ∧
      ∀ t, t ∈ m' ↔ n.graph.Beside (n.graph.Around text place.pos ids) t ∧
        n.graph.Enters text t place.pos (place.pos + 1) := by
  obtain ⟨seen', next', l', m', hall, hseen', hnext', _, saturated, sound, reads, all⟩ :=
    walkAll_expands v hp hplace (closed_around place.pos ids) ids hseen hnext
      (fun id hid => ⟨hids id hid, id, hid, .refl⟩) (by simp [Saturated]) (by simp) (by simp)
  refine ⟨seen', next', l', m', hall, hseen', hnext', fun t => ?_⟩
  rw [reads]
  constructor
  · rintro ⟨ht, enters⟩; exact ⟨sound t ht, enters⟩
  · rintro ⟨⟨s, hs, ht⟩, enters⟩; exact ⟨saturated.around ids all hs ht, enters⟩

/-- At the end of the text a frontier accepts when one of its states comes to the accepting state
without reading. -/
theorem accepts_decides (v : n.Valid) (hp : n.Plain) (hplace : (Cursor.ofText text).Leads place)
    (last : place.pos = text.size) {Near : Nat → Prop} (closed : n.Closed text place.pos Near)
    (ids : List Nat) : ∀ {seen next : IndexSet} {l m : List Nat}, seen.Lists n.size l →
    next.Lists n.size m → (∀ id ∈ ids, id < n.size ∧ Near id) → n.Saturated text place.pos l →
    (∀ t ∈ l, n.graph.Enters text t place.pos place.pos → t ≠ n.accept) →
    ∃ found, n.accepts place ids seen next = .ok found ∧
      (found = true → Near n.accept) ∧
      (found = false → ¬ n.graph.Around text place.pos ids n.accept) := by
  induction ids with
  | nil =>
    intro seen next l m _ _ _ _ _
    exact ⟨false, rfl, by simp, by simp [Graph.Around]⟩
  | cons id ids ih =>
    intro seen next l m hseen hnext hids saturated avoids
    obtain ⟨⟨hid, near⟩, hids⟩ := List.forall_mem_cons.mp hids
    by_cases here : id = n.accept
    · exact ⟨true, by simp [accepts, here, pure, Except.pure], fun _ => here ▸ near, by simp⟩
    obtain ⟨w, l₁, m₁, hw, h⟩ := walk_expands v hp hplace closed (some n.accept) [] [id]
      seen next hseen hnext (by simp) (by simpa using ⟨hid, near⟩)
    cases hf : w.found with
    | true =>
      obtain ⟨t, q, same, ⟨s, hs, ht⟩, enters⟩ := h.found hf
      cases same
      have stays : q = place.pos := by
        rw [last] at enters ⊢
        exact enters.at_end
      refine ⟨true, by simp [accepts, here, hw, ok_bind, hf, pure, Except.pure], fun _ => ?_,
        by simp⟩
      exact closed s n.accept hs ⟨ht, stays ▸ enters⟩
    | false =>
      have saturated₁ := h.saturated hf saturated
      have avoids₁ : ∀ t ∈ l₁, n.graph.Enters text t place.pos place.pos → t ≠ n.accept := by
        intro t ht enters same
        by_cases old : t ∈ l
        · exact avoids t old enters same
        · exact (h.complete hf t ht old).2.2 _ enters (same ▸ rfl)
      obtain ⟨found, ha, yes, no⟩ := ih h.seen h.next hids saturated₁ avoids₁
      refine ⟨found, by simp [accepts, here, hw, ok_bind, hf, ha], yes, fun lost => ?_⟩
      rintro ⟨s, hs, frees⟩
      rcases List.mem_cons.mp hs with rfl | hs
      · rcases Relation.ReflTransGen.cases_tail frees with same | ⟨u, frees, free⟩
        · exact here same.symm
        · have inside := saturated₁.around [s]
            (by simpa using (h.entered hf).2 s (by simp)) ⟨s, by simp, frees⟩ free.1
          exact avoids₁ _ inside free.2 rfl
      · exact no lost ⟨s, hs, frees⟩

/-- Stepping a frontier on decides whether a run leads from it to the end. -/
theorem step_decides (v : n.Valid) (hp : n.Plain) (text : Array Char) (left : Nat) :
    ∀ (pos : Nat) {current next seen : IndexSet} {ids seenIds : List Nat}, left + pos = text.size →
    current.Lists n.size ids → next.Lists n.size [] → seen.Lists n.size seenIds →
    ∃ found, n.step (.ofText text) left pos ⟨current, next⟩ seen = .ok found ∧
      (found = true ↔ n.graph.Leads text (· = n.accept) ids pos) := by
  induction left with
  | zero =>
    intro pos current next seen ids seenIds hpos hcurrent hnext hseen
    obtain ⟨place, hm, hplace, here⟩ := Cursor.moveTo_ofText text pos (by omega)
    have last : pos = text.size := by omega
    have below : ∀ id ∈ ids, id < n.size := fun id => hcurrent.lt_of_mem
    obtain ⟨found, ha, yes, no⟩ := accepts_decides v hp hplace (here.trans last)
      (closed_around place.pos ids) ids hseen.clear hnext
      (fun id hid => ⟨below id hid, id, hid, .refl⟩) (by simp [Saturated]) (by simp)
    refine ⟨found, by rw [step, hm, ok_bind, hcurrent.members, ha], ?_⟩
    rw [last, Graph.leads_at_end, ← last, ← here, exists_eq_left]
    cases found with
    | true => exact iff_of_true rfl (yes rfl)
    | false => exact iff_of_false (by decide) (no rfl)
  | succ left ih =>
    intro pos current next seen ids seenIds hpos hcurrent hnext hseen
    obtain ⟨place, hm, hplace, here⟩ := Cursor.moveTo_ofText text pos (by omega)
    obtain ⟨seen', next', l, m, hall, hseen', hnext', reads⟩ :=
      walkAll_next v hp hplace (fun id => hcurrent.lt_of_mem) hseen.clear hnext
    rw [here] at reads
    rw [Graph.leads_next (by omega) reads]
    cases he : m.isEmpty with
    | true =>
      refine ⟨false, ?_, ?_⟩
      · rw [step, hm, ok_bind, hcurrent.members, hall, ok_bind]
        simp [hnext'.isEmpty_eq, he, pure, Except.pure]
      · simp [List.isEmpty_iff.mp he, Graph.Leads]
    | false =>
      obtain ⟨found, hs, decides⟩ := ih (pos + 1) (by omega) hnext' hcurrent.clear hseen'
      refine ⟨found, ?_, decides⟩
      rw [step, hm, ok_bind, hcurrent.members, hall, ok_bind]
      simpa [hnext'.isEmpty_eq, he, Frontiers.advance] using hs

/-- **The simulation decides whether a run accepts**, on every automaton whose ids are valid and
every text. -/
theorem isMatch_accepts (v : n.Valid) (hp : n.Plain) (text : Array Char) :
    ∃ found, n.isMatch text = .ok found ∧ (found = true ↔ n.Accepts text) := by
  obtain ⟨current, hi, hcurrent⟩ := (IndexSet.lists_empty n.size).insert_eq v.start
  obtain ⟨found, hs, decides⟩ := step_decides v hp text text.size 0 rfl hcurrent
    (IndexSet.lists_empty n.size) (IndexSet.lists_empty n.size)
  refine ⟨found, by rw [isMatch, hi, ok_bind]; exact hs, decides.trans ?_⟩
  simp [Graph.Leads, addNew, Accepts]

end Nfa

end WholeMatch
