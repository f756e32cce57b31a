import WholeMatch.Dfa.Simulate
import WholeMatch.Proofs.Graphs
import WholeMatch.Proofs.Members

namespace WholeMatch

namespace Dfa

/-- Where the edges of a composite lead, to those without a guard among others. -/
def edgesOf (d : Dfa) (id : Nat) : List Nat := (d.composites[id]?.map (·.edges)).getD []

def guardAt (d : Dfa) (id : Nat) : Option Guard :=
  (d.composites[id]?.bind (·.guard)).bind (d.guards[·]?)

def graph (d : Dfa) : Graph where
  targets id := (d.edgesOf id).filter fun t => (d.guardAt t).isSome
  guard := d.guardAt

/-- A composite that accepts and has no guard. -/
def Concludes (d : Dfa) (id : Nat) : Prop :=
  ∃ c, d.composites[id]? = some c ∧ c.guard = none ∧ c.accepting = true

/-- A run may end in a composite that accepts, or that has an edge to one without a guard. -/
def Final (d : Dfa) (id : Nat) : Prop :=
  ∃ c, d.composites[id]? = some c ∧ (c.accepting = true ∨ ∃ t ∈ c.edges, d.Concludes t)

/-- Every id is one that a table has. -/
structure Valid (d : Dfa) : Prop where
  root : root < d.size
  edges : ∀ id t, t ∈ d.edgesOf id → t < d.size
  guards : ∀ (id : Nat) c g, d.composites[id]? = some c → c.guard = some g → g < d.guards.size

/-- No charset of the table holds an assertion. -/
def Plain (d : Dfa) : Prop := ∀ guard ∈ d.guards, guard.plain = true

variable {d : Dfa} {id t : Nat} {text : Array Char}

theorem mem_targets : t ∈ d.graph.targets id ↔ t ∈ d.edgesOf id ∧ (d.graph.guard t).isSome :=
  List.mem_filter

theorem mem_edgesOf {c : Composite} (hc : d.composites[id]? = some c) (ht : t ∈ c.edges) :
    t ∈ d.edgesOf id := by
  simpa [edgesOf, hc] using ht

theorem exists_edge (ht : t ∈ d.edgesOf id) :
    ∃ c, d.composites[id]? = some c ∧ t ∈ c.edges := by
  cases hc : d.composites[id]? with
  | none => simp [edgesOf, hc] at ht
  | some c => exact ⟨c, rfl, by simpa [edgesOf, hc] using ht⟩

theorem composite_eq (h : id < d.size) :
    ∃ c, d.composite id = .ok c ∧ d.composites[id]? = some c ∧ c.edges = d.edgesOf id := by
  have room : id < d.composites.size := h
  exact ⟨d.composites[id], lookup_of_lt room, Array.getElem?_eq_getElem room,
    by simp [edgesOf, room]⟩

theorem Valid.guardOf_eq (v : d.Valid) (h : id < d.size) :
    d.guardOf id = .ok (d.graph.guard id) := by
  obtain ⟨c, hc, here, _⟩ := composite_eq h
  simp only [guardOf, hc, ok_bind, graph, guardAt, here, Option.bind_some]
  cases hg : c.guard with
  | none => rfl
  | some g =>
    have inside := v.guards id c g here hg
    simp [lookup_of_lt inside, ok_bind, pure, Except.pure, inside]

theorem Plain.guard (hp : d.Plain) {guard : Guard} (h : d.graph.guard id = some guard) :
    guard.plain = true := by
  obtain ⟨g, _, hg⟩ := Option.bind_eq_some_iff.mp h
  exact hp guard (Array.mem_of_getElem? hg)

/-- Entering without reading, or by reading a character, is up to the guard. -/
theorem enters_answers (hp : d.Plain) {place : Cursor} (hplace : (Cursor.ofText text).Leads place)
    {guard : Guard} (hg : d.graph.guard id = some guard) :
    ∃ hit next, guard.attempt place = .ok (hit, next) ∧
      (d.graph.Enters text id place.pos place.pos ↔ guard.zeroWidth = true ∧ hit = true) ∧
      (d.graph.Enters text id place.pos (place.pos + 1) ↔
        guard.zeroWidth = false ∧ hit = true) := by
  obtain ⟨hit, next, ha, spans⟩ := Guard.attempt_answers (hp.guard hg) hplace
  refine ⟨hit, next, ha, ?_⟩
  simp only [Graph.enters_of_guard hg, spans]
  cases guard.zeroWidth <;> simp

variable {place : Cursor}

/-- From `l` to `l'` those of the targets are added that an assertion leads to. -/
structure Joins (d : Dfa) (text : Array Char) (p : Nat) (ts l l' : List Nat) : Prop where
  grown : l <+: l'
  mem : ∀ t, t ∈ l' ↔
    t ∈ l ∨ t ∈ ts ∧ (d.graph.guard t).isSome ∧ d.graph.Enters text t p p

/-- A target that is not added is not entered without reading, or it was a member before. -/
theorem Joins.skip {p : Nat} {ts l l' : List Nat} (h : d.Joins text p ts l l')
    (already : (d.graph.guard id).isSome → d.graph.Enters text id p p → id ∈ l) :
    d.Joins text p (id :: ts) l l' := by
  refine ⟨h.grown, fun t => ?_⟩
  rw [h.mem, List.mem_cons]
  constructor
  · rintro (old | ⟨ht, enters⟩)
    · exact .inl old
    · exact .inr ⟨.inr ht, enters⟩
  · rintro (old | ⟨rfl | ht, some, enters⟩)
    · exact .inl old
    · exact .inl (already some enters)
    · exact .inr ⟨ht, some, enters⟩

theorem Joins.add {p : Nat} {ts l l' : List Nat} (h : d.Joins text p ts (addNew l id) l')
    (some : (d.graph.guard id).isSome) (enters : d.graph.Enters text id p p) :
    d.Joins text p (id :: ts) l l' := by
  refine ⟨prefix_addNew.trans h.grown, fun t => ?_⟩
  rw [h.mem, mem_addNew, List.mem_cons]
  constructor
  · rintro ((old | rfl) | ⟨ht, here⟩)
    · exact .inl old
    · exact .inr ⟨.inl rfl, some, enters⟩
    · exact .inr ⟨.inr ht, here⟩
  · rintro (old | ⟨rfl | ht, here⟩)
    · exact .inl (.inl old)
    · exact .inl (.inr rfl)
    · exact .inr ⟨ht, here⟩

theorem addAsserted_joins (v : d.Valid) (hp : d.Plain) (hplace : (Cursor.ofText text).Leads place)
    (ts : List Nat) : ∀ {current : IndexSet} {l : List Nat}, current.Lists d.size l →
    (∀ t ∈ ts, t < d.size) →
    ∃ after l', d.addAsserted place ts current = .ok after ∧ after.Lists d.size l' ∧
      d.Joins text place.pos ts l l' := by
  induction ts with
  | nil =>
    intro current l h _
    exact ⟨current, l, rfl, h, List.prefix_rfl, by simp⟩
  | cons u ts ih =>
    intro current l h hts
    obtain ⟨hu, hts⟩ := List.forall_mem_cons.mp hts
    obtain ⟨after, l', ha, h', joins⟩ := ih h hts
    rw [addAsserted, v.guardOf_eq hu, ok_bind]
    cases hg : d.graph.guard u with
    | none => exact ⟨after, l', ha, h', joins.skip (by simp [hg])⟩
    | some guard =>
      obtain ⟨hit, next, answer, enters, _⟩ := enters_answers hp hplace hg
      cases width : guard.zeroWidth with
      | false => exact ⟨after, l', by simp [width, ha], h', joins.skip (by simp [enters, width])⟩
      | true =>
        simp only [width, Bool.not_true, Bool.false_eq_true, ↓reduceIte, h.contains_eq hu, ok_bind]
        by_cases known : u ∈ l
        · exact ⟨after, l', by simp [known, ha], h', joins.skip fun _ _ => known⟩
        · simp only [known, decide_false, Bool.false_eq_true, ↓reduceIte, answer, ok_bind]
          cases hit with
          | false => exact ⟨after, l', by simp [ha], h', joins.skip (by simp [enters])⟩
          | true =>
            obtain ⟨added, hi, hadded⟩ := h.insert_eq hu
            obtain ⟨after, l', ha, h', joins⟩ := ih hadded hts
            exact ⟨after, l', by simp [hi, ok_bind, ha], h',
              joins.add (by simp [hg]) (enters.mpr ⟨width, rfl⟩)⟩

/-- A composite adds what it leads to without reading. -/
theorem addAsserted_free (v : d.Valid) (hp : d.Plain) (hplace : (Cursor.ofText text).Leads place)
    {current : IndexSet} {l : List Nat} (h : current.Lists d.size l) (id : Nat) :
    ∃ after l', d.addAsserted place (d.edgesOf id) current = .ok after ∧ after.Lists d.size l' ∧
      l <+: l' ∧ ∀ t, t ∈ l' ↔ t ∈ l ∨ d.graph.Free text place.pos id t := by
  obtain ⟨after, l', ha, h', joins⟩ :=
    addAsserted_joins v hp hplace (d.edgesOf id) h (v.edges id)
  exact ⟨after, l', ha, h', joins.grown,
    fun t => by rw [joins.mem, Graph.Free, mem_targets, and_assoc]⟩

theorem closeAsserted_lists (v : d.Valid) (hp : d.Plain)
    (hplace : (Cursor.ofText text).Leads place) {start : List Nat} (i : Nat) (current : IndexSet) :
    ∀ {l : List Nat}, current.Lists d.size l →
    (∀ s ∈ l, d.graph.Around text place.pos start s) →
    (∀ s ∈ l.take i, ∀ t, d.graph.Free text place.pos s t → t ∈ l) →
    ∃ after l', d.closeAsserted place i current = .ok after ∧ after.Lists d.size l' ∧ l ⊆ l' ∧
      (∀ s ∈ l', d.graph.Around text place.pos start s) ∧
      ∀ s ∈ l', ∀ t, d.graph.Free text place.pos s t → t ∈ l' := by
  fun_induction closeAsserted d place i current with
  | case1 i current more inside f hc =>
    intro l h _ _
    have member := List.mem_of_getElem? (h.getElem?_eq more inside)
    obtain ⟨c, hc', _⟩ := composite_eq (h.lt_of_mem member)
    rw [hc'] at hc
    cases hc
  | case2 i current more inside c hc f ha =>
    intro l h _ _
    have member := List.mem_of_getElem? (h.getElem?_eq more inside)
    obtain ⟨c', hc', _, edges⟩ := composite_eq (h.lt_of_mem member)
    rw [hc'] at hc
    cases hc
    obtain ⟨after, _, ha', _⟩ := addAsserted_free v hp hplace h current.dense[i]
    rw [edges, ha'] at ha
    cases ha
  | case3 i current more inside c hc after ha same ih =>
    intro l h around closed
    have here := h.getElem?_eq more inside
    have member := List.mem_of_getElem? here
    obtain ⟨c', hc', _, edges⟩ := composite_eq (h.lt_of_mem member)
    rw [hc'] at hc
    cases hc
    obtain ⟨after', l₁, ha', h₁, grown, mem⟩ := addAsserted_free v hp hplace h current.dense[i]
    rw [edges, ha'] at ha
    cases ha
    have around₁ : ∀ s ∈ l₁, d.graph.Around text place.pos start s := by
      intro s hs
      rcases (mem s).mp hs with old | new
      · exact around s old
      · obtain ⟨id, hid, frees⟩ := around _ member
        exact ⟨id, hid, frees.tail new⟩
    obtain ⟨last, l', hl, h', sub, around', closed'⟩ := ih h₁ around₁
      (take_succ_closed here closed grown fun t ht => (mem t).mpr (.inr ht))
    exact ⟨last, l', hl, h', List.Subset.trans grown.subset sub, around', closed'⟩
  | case4 i current done =>
    intro l h around closed
    refine ⟨current, l, rfl, h, List.Subset.refl l, around, ?_⟩
    rwa [List.take_of_length_le (by rw [← h.size_eq]; omega)] at closed

/-- **A frontier is joined by what it comes to without reading.** -/
theorem closeAsserted_around (v : d.Valid) (hp : d.Plain)
    (hplace : (Cursor.ofText text).Leads place) {current : IndexSet} {ids : List Nat}
    (h : current.Lists d.size ids) :
    ∃ after l, d.closeAsserted place 0 current = .ok after ∧ after.Lists d.size l ∧
      ∀ s, s ∈ l ↔ d.graph.Around text place.pos ids s := by
  obtain ⟨after, l, hc, hl, sub, around, closed⟩ := closeAsserted_lists v hp hplace 0 current h
    (fun s hs => ⟨s, hs, .refl⟩) (by simp)
  refine ⟨after, l, hc, hl, fun s => ⟨around s, ?_⟩⟩
  rintro ⟨id, hid, frees⟩
  induction frees with
  | refl => exact sub hid
  | tail _ step ih => exact closed _ ih _ step

/-- Entered by reading a character. -/
def Consuming (d : Dfa) (id : Nat) : Prop :=
  ∃ guard, d.graph.guard id = some guard ∧ guard.zeroWidth = false

/-- The targets that are tried are those that consume, and those of them that read the character
at the place are kept. -/
structure Tries (d : Dfa) (text : Array Char) (p : Nat) (ts : List Nat) (l l' m' : List Nat) :
    Prop where
  tried : ∀ t, t ∈ l' ↔ t ∈ l ∨ t ∈ ts ∧ d.Consuming t
  kept : Keeping (d.graph.Enters text · p (p + 1)) l' m'

namespace Tries

variable {p : Nat} {ts l l' m' : List Nat}

/-- A target that does not consume is not tried. -/
theorem skip (h : d.Tries text p ts l l' m') (other : ¬ d.Consuming id) :
    d.Tries text p (id :: ts) l l' m' := by
  refine ⟨fun t => ?_, h.kept⟩
  rw [h.tried, List.mem_cons]
  constructor
  · rintro (old | ⟨ht, consuming⟩)
    · exact .inl old
    · exact .inr ⟨.inr ht, consuming⟩
  · rintro (old | ⟨rfl | ht, consuming⟩)
    · exact .inl old
    · exact absurd consuming other
    · exact .inr ⟨ht, consuming⟩

theorem add (h : d.Tries text p ts (addNew l id) l' m') (consuming : d.Consuming id) :
    d.Tries text p (id :: ts) l l' m' := by
  refine ⟨fun t => ?_, h.kept⟩
  rw [h.tried, mem_addNew, List.mem_cons]
  constructor
  · rintro ((old | rfl) | ⟨ht, here⟩)
    · exact .inl old
    · exact .inr ⟨.inl rfl, consuming⟩
    · exact .inr ⟨.inr ht, here⟩
  · rintro (old | ⟨rfl | ht, here⟩)
    · exact .inl (.inl old)
    · exact .inl (.inr rfl)
    · exact .inr ⟨ht, here⟩

end Tries

theorem addConsuming_tries (v : d.Valid) (hp : d.Plain) (hplace : (Cursor.ofText text).Leads place)
    (ts : List Nat) : ∀ {tried next : IndexSet} {l m : List Nat}, tried.Lists d.size l →
    next.Lists d.size m → (∀ t ∈ ts, t < d.size) →
    Keeping (d.graph.Enters text · place.pos (place.pos + 1)) l m →
    ∃ tried' next' l' m', d.addConsuming place ts tried next = .ok (tried', next') ∧
      tried'.Lists d.size l' ∧ next'.Lists d.size m' ∧ d.Tries text place.pos ts l l' m' := by
  induction ts with
  | nil =>
    intro tried next l m htried hnext _ kept
    exact ⟨tried, next, l, m, rfl, htried, hnext, by simp, kept⟩
  | cons u ts ih =>
    intro tried next l m htried hnext hts kept
    obtain ⟨hu, hts⟩ := List.forall_mem_cons.mp hts
    rw [addConsuming, v.guardOf_eq hu, ok_bind]
    cases hg : d.graph.guard u with
    | none =>
      obtain ⟨tried', next', l', m', ha, htried', hnext', h⟩ := ih htried hnext hts kept
      exact ⟨tried', next', l', m', ha, htried', hnext', h.skip (by simp [Consuming, hg])⟩
    | some guard =>
      obtain ⟨hit, after, answer, _, reads⟩ := enters_answers hp hplace hg
      cases width : guard.zeroWidth with
      | true =>
        obtain ⟨tried', next', l', m', ha, htried', hnext', h⟩ := ih htried hnext hts kept
        exact ⟨tried', next', l', m', by simp [width, ha], htried', hnext',
          h.skip (by simp [Consuming, hg, width])⟩
      | false =>
        have consuming : d.Consuming u := ⟨guard, hg, width⟩
        obtain ⟨added, hi, hadded⟩ := htried.insert_eq hu
        -- the next frontier keeps what was tried and read, the target among it
        have onward : ∀ {next₁ : IndexSet} {m₁ : List Nat}, next₁.Lists d.size m₁ →
            Keeping (d.graph.Enters text · place.pos (place.pos + 1)) (addNew l u) m₁ →
            ∃ tried' next' l' m', d.addConsuming place ts added next₁ = .ok (tried', next') ∧
              tried'.Lists d.size l' ∧ next'.Lists d.size m' ∧
              d.Tries text place.pos (u :: ts) l l' m' := by
          intro next₁ m₁ hnext₁ kept₁
          obtain ⟨tried', next', l', m', ha, htried', hnext', h⟩ := ih hadded hnext₁ hts kept₁
          exact ⟨tried', next', l', m', ha, htried', hnext', h.add consuming⟩
        by_cases known : u ∈ l
        · simpa [width, hi, known, ok_bind] using onward hnext (kept.known known)
        · cases hit with
          | false =>
            have missed : ¬ d.graph.Enters text u place.pos (place.pos + 1) := by simp [reads]
            simpa [width, hi, known, answer, ok_bind] using onward hnext (kept.miss missed)
          | true =>
            obtain ⟨grown, hn, hgrown⟩ := hnext.insert_eq hu
            have read : d.graph.Enters text u place.pos (place.pos + 1) :=
              reads.mpr ⟨width, rfl⟩
            simpa [width, hi, known, answer, hn, ok_bind] using onward hgrown (kept.hit read)

theorem consume_tries (v : d.Valid) (hp : d.Plain) (hplace : (Cursor.ofText text).Leads place)
    (ids : List Nat) : ∀ {tried next : IndexSet} {l m : List Nat}, tried.Lists d.size l →
    next.Lists d.size m → (∀ id ∈ ids, id < d.size) →
    Keeping (d.graph.Enters text · place.pos (place.pos + 1)) l m →
    ∃ tried' next' l' m', d.consume place ids tried next = .ok (tried', next') ∧
      tried'.Lists d.size l' ∧ next'.Lists d.size m' ∧
      d.Tries text place.pos (ids.flatMap d.edgesOf) l l' m' := by
  induction ids with
  | nil =>
    intro tried next l m htried hnext _ kept
    exact ⟨tried, next, l, m, rfl, htried, hnext, by simp, kept⟩
  | cons id ids ih =>
    intro tried next l m htried hnext hids kept
    obtain ⟨hid, hids⟩ := List.forall_mem_cons.mp hids
    obtain ⟨c, hc, _, edges⟩ := composite_eq hid
    obtain ⟨tried₁, next₁, l₁, m₁, ha, htried₁, hnext₁, h₁⟩ :=
      addConsuming_tries v hp hplace (d.edgesOf id) htried hnext (v.edges id) kept
    obtain ⟨tried', next', l', m', hcons, htried', hnext', h⟩ := ih htried₁ hnext₁ hids h₁.kept
    refine ⟨tried', next', l', m', ?_, htried', hnext', fun t => ?_, h.kept⟩
    · rw [consume, hc, ok_bind, edges, ha, ok_bind]
      exact hcons
    · rw [h.tried, h₁.tried, List.flatMap_cons, List.mem_append, or_and_right, or_assoc]

/-- **The next frontier** is what the current one reads the character into. -/
theorem consume_next (v : d.Valid) (hp : d.Plain) (hplace : (Cursor.ofText text).Leads place)
    {ids : List Nat} (hids : ∀ id ∈ ids, id < d.size) {tried next : IndexSet}
    (htried : tried.Lists d.size []) (hnext : next.Lists d.size []) :
    ∃ tried' next' l m, d.consume place ids tried next = .ok (tried', next') ∧
      tried'.Lists d.size l ∧ next'.Lists d.size m ∧
      ∀ t, t ∈ m ↔ d.graph.Beside (· ∈ ids) t ∧
        d.graph.Enters text t place.pos (place.pos + 1) := by
  obtain ⟨tried', next', l, m, hc, htried', hnext', h⟩ :=
    consume_tries v hp hplace ids htried hnext hids (by simp [Keeping])
  refine ⟨tried', next', l, m, hc, htried', hnext', fun t => ?_⟩
  rw [h.kept, h.tried]
  simp only [List.not_mem_nil, false_or, List.mem_flatMap, Graph.Beside, mem_targets]
  constructor
  · rintro ⟨⟨⟨id, hid, edge⟩, guard, hg, _⟩, enters⟩
    exact ⟨⟨id, hid, edge, by simp [hg]⟩, enters⟩
  · rintro ⟨⟨id, hid, edge, some⟩, enters⟩
    obtain ⟨guard, hg⟩ := Option.isSome_iff_exists.mp some
    obtain ⟨hit, _, _, _, reads⟩ := enters_answers hp hplace hg
    exact ⟨⟨⟨id, hid, edge⟩, guard, hg, (reads.mp enters).1⟩, enters⟩

theorem leadsToAccept_eq (ts : List Nat) (hts : ∀ t ∈ ts, t < d.size) :
    ∃ found, d.leadsToAccept ts = .ok found ∧ (found = true ↔ ∃ t ∈ ts, d.Concludes t) := by
  induction ts with
  | nil => exact ⟨false, rfl, by simp⟩
  | cons t ts ih =>
    obtain ⟨ht, hts⟩ := List.forall_mem_cons.mp hts
    obtain ⟨c, hc, here, _⟩ := composite_eq ht
    have concludes : d.Concludes t ↔ c.guard = none ∧ c.accepting = true := by
      simp [Concludes, here]
    rw [leadsToAccept, hc, ok_bind]
    by_cases hit : d.Concludes t
    · refine ⟨true, ?_, by simp [hit]⟩
      simp [concludes.mp hit, pure, Except.pure]
    · obtain ⟨found, hf, same⟩ := ih hts
      refine ⟨found, ?_, by simp [hit, same]⟩
      rw [concludes] at hit
      simp [hit, hf]

theorem accepts_eq (v : d.Valid) (ids : List Nat) (hids : ∀ id ∈ ids, id < d.size) :
    ∃ found, d.accepts ids = .ok found ∧ (found = true ↔ ∃ id ∈ ids, d.Final id) := by
  induction ids with
  | nil => exact ⟨false, rfl, by simp⟩
  | cons id ids ih =>
    obtain ⟨hid, hids⟩ := List.forall_mem_cons.mp hids
    obtain ⟨c, hc, here, edges⟩ := composite_eq hid
    obtain ⟨leads, hl, concludes⟩ := leadsToAccept_eq c.edges (edges ▸ v.edges id)
    have final : d.Final id ↔ c.accepting = true ∨ leads = true := by simp [Final, here, concludes]
    rw [accepts, hc, ok_bind]
    by_cases hit : d.Final id
    · refine ⟨true, ?_, by simp [hit]⟩
      rcases final.mp hit with accepting | leads
      · simp [accepting, pure, Except.pure]
      · simp [hl, ok_bind, leads, pure, Except.pure]
    · obtain ⟨found, hf, same⟩ := ih hids
      refine ⟨found, ?_, by simp [hit, same]⟩
      rw [final] at hit
      simp_all [ok_bind]

/-- Stepping composites on decides whether a run leads from one of them to a final one. -/
theorem step_leads (v : d.Valid) (hp : d.Plain) (text : Array Char) (left : Nat) :
    ∀ (pos : Nat) {current next tried : IndexSet} {ids triedIds : List Nat},
    left + pos = text.size → current.Lists d.size ids → next.Lists d.size [] →
    tried.Lists d.size triedIds →
    ∃ found, d.step (.ofText text) left pos ⟨current, next⟩ tried = .ok found ∧
      (found = true ↔ d.graph.Leads text d.Final ids pos) := by
  induction left with
  | zero =>
    intro pos current next tried ids triedIds hpos hcurrent _ _
    obtain ⟨place, hm, hplace, here⟩ := Cursor.moveTo_ofText text pos (by omega)
    have last : pos = text.size := by omega
    obtain ⟨after, l, hc, hl, around⟩ := closeAsserted_around v hp hplace hcurrent
    obtain ⟨found, ha, final⟩ := accepts_eq v l fun id => hl.lt_of_mem
    refine ⟨found, ?_, ?_⟩
    · rw [step, hm, ok_bind, hc, ok_bind, hl.members, ha]
    · rw [here, last] at around
      rw [final, last, Graph.leads_at_end]
      simp only [around, and_comm]
  | succ left ih =>
    intro pos current next tried ids triedIds hpos hcurrent hnext htried
    obtain ⟨place, hm, hplace, here⟩ := Cursor.moveTo_ofText text pos (by omega)
    obtain ⟨after, l, hc, hl, around⟩ := closeAsserted_around v hp hplace hcurrent
    obtain ⟨tried', next', l', m, hcons, htried', hnext', reads⟩ :=
      consume_next v hp hplace (fun id => hl.lt_of_mem) htried.clear hnext
    have reads : ∀ t, t ∈ m ↔ d.graph.Beside (d.graph.Around text pos ids) t ∧
        d.graph.Enters text t pos (pos + 1) := by
      intro t
      rw [reads, here]
      simp only [Graph.Beside, around, here]
    rw [Graph.leads_next (by omega) reads]
    cases he : m.isEmpty with
    | true =>
      refine ⟨false, ?_, ?_⟩
      · rw [step, hm, ok_bind, hc, ok_bind, hl.members, hcons, ok_bind]
        simp [hnext'.isEmpty_eq, he, pure, Except.pure]
      · simp [List.isEmpty_iff.mp he, Graph.Leads]
    | false =>
      obtain ⟨found, hs, decides⟩ := ih (pos + 1) (by omega) hnext' hl.clear htried'
      refine ⟨found, ?_, decides⟩
      rw [step, hm, ok_bind, hc, ok_bind, hl.members, hcons, ok_bind]
      simpa [hnext'.isEmpty_eq, he, Frontiers.advance] using hs

/-- **Stepping composites decides whether a run from the root is final** at the end of the text. -/
theorem isMatch_leads (v : d.Valid) (hp : d.Plain) (text : Array Char) :
    ∃ found, d.isMatch text = .ok found ∧
      (found = true ↔ d.graph.Leads text d.Final [root] 0) := by
  obtain ⟨current, hi, hcurrent⟩ := (IndexSet.lists_empty d.size).insert_eq v.root
  obtain ⟨found, hs, decides⟩ := step_leads v hp text text.size 0 rfl hcurrent
    (IndexSet.lists_empty d.size) (IndexSet.lists_empty d.size)
  exact ⟨found, by rw [isMatch, hi, ok_bind]; exact hs, decides⟩

end Dfa

end WholeMatch
