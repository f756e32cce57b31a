import WholeMatch.Proofs.Estimating
import WholeMatch.Proofs.Locality

namespace WholeMatch

mutual

theorem Grammar.Piece.lively {w : List Char} {t : Term} (h : Piece .own w t) : t.Lively := by
  match h with
  | .guard _ _ => trivial
  | .group inside _ _ => exact inside.lively

theorem Grammar.Row.lively {w : List Char} {ts : List Term} (h : Row .own w ts) :
    branchLively ts := by
  match h with
  | .last piece _ => exact ⟨piece.lively, trivial⟩
  | .cons piece rest _ => exact ⟨piece.lively, rest.lively⟩

theorem Grammar.Choice.lively {w : List Char} {bs : List (List Term)} (h : Choice .own w bs) :
    bs ≠ [] ∧ branchesLively bs := by
  match h with
  | .last row => exact ⟨List.cons_ne_nil _ _, row.lively, trivial⟩
  | .cons row others => exact ⟨List.cons_ne_nil _ _, row.lively, others.lively.2⟩

end

namespace Draft

variable {live : Prop} {d d' : Draft} {f : Fragment} {gs : List Guard}
  {R : Array Char → Nat → Nat → Prop}

/-- The fragment `f` was added and has no dead end. -/
structure Trim (d d' : Draft) (f : Fragment) : Prop where
  sound : d'.Sound
  apart : f.start ≠ f.stop
  unentered : ∀ s, f.start ∉ d'.graph.targets s
  untied : d'.graph.targets f.stop = []
  inside : ∀ s, d'.graph.Reach f.start s → d.Added d' s
  drains : ∀ s, d'.graph.Reach f.start s → d'.graph.Reach s f.stop

theorem Builds.trim (h : Builds live d d' f gs R) (living : live) : d.Trim d' f where
  sound := h.sound
  apart := h.apart
  unentered := h.unentered
  untied := h.untied
  inside _ reach := ((Graph.upTo_iff_reach h.untied).mpr reach).inside h.holds.within h.holds.start
  drains s reach := (h.holds.drains living s ((Graph.upTo_iff_reach h.untied).mpr reach)).reach

end Draft

namespace Node

variable {n : Node}

/-- What a node is drafted as. A row has a fragment for its first term and one for the whole
row. -/
def drafts : Node → List (Draft → Except Fault (Fragment × Draft))
  | choice branches _ => [Draft.branches branches]
  | row t behind => [Draft.term t, Draft.branch (t :: behind)]
  | guard g => [(·.guarded g)]

/-- How many states are added for a node, at most. -/
def footprint : Node → Nat
  | choice branches _ => branchesFootprint branches
  | row t behind => branchFootprint (t :: behind)
  | guard _ => 2

/-- By itself a node takes no fewer states. -/
theorem footprint_le_alone (n : Node) : n.footprint ≤ n.alone.footprint := by
  cases n with
  | choice branches label => exact Nat.le_refl _
  | row t behind => exact Nat.le_refl _
  | guard g => exact Nat.le_add_right 2 2

/-- **Whatever a node is drafted as** has no dead end, if there are ids for its states. -/
theorem drafts_trim (h : n.Derived) : ∀ draft ∈ n.drafts, ∀ d : Draft, d.Sound →
    d.arena.size + n.footprint ≤ words → ∃ f d', draft d = .ok (f, d') ∧ d.Trim d' f := by
  intro draft hd d sound room
  cases n with
  | choice branches label =>
    obtain rfl := List.mem_singleton.mp hd
    have derived : Grammar.Choice .own label.toList branches := h
    obtain ⟨f, d', hb, _, builds, _⟩ := Draft.branches_builds branches sound room
    exact ⟨f, d', hb, builds.trim derived.lively⟩
  | row t behind =>
    have derived : Grammar.Row .own t.label.toList (t :: behind) := h
    rcases List.mem_pair.mp hd with rfl | rfl
    · rw [footprint, branchFootprint] at room
      obtain ⟨f, d', ht, _, builds, _⟩ := Draft.term_builds t sound (by omega)
      exact ⟨f, d', ht, builds.trim derived.lively.1⟩
    · obtain ⟨f, d', hb, _, builds, _⟩ := Draft.branch_builds (t :: behind) sound room
      exact ⟨f, d', hb, builds.trim derived.lively⟩
  | guard g =>
    obtain rfl := List.mem_singleton.mp hd
    obtain ⟨f, d', hg, _, builds⟩ := Draft.guarded_builds sound g room
    exact ⟨f, d', hg, builds.trim trivial⟩

end Node

namespace Nfa

variable {n : Nfa}

/-- Every id is one that a table has, no edge is there twice, and whatever is in reach of the start
leads on to the accepting state and not back to the start. -/
structure Trim (n : Nfa) : Prop where
  valid : n.Valid
  nodup : ∀ s, (n.graph.targets s).Nodup
  free : n.arena.mark n.start = none
  unentered : ∀ s, n.graph.Reach n.start s → n.start ∉ n.graph.targets s
  accept : n.graph.Reach n.start n.accept
  drains : ∀ s, n.graph.Reach n.start s → n.graph.Reach s n.accept

/-- **Merging states away** leaves no dead end. -/
theorem Trim.collapse (h : n.Trim) : ∃ merged n', n.collapse = .ok (merged, n') ∧ n'.Trim := by
  obtain ⟨c, hc, keeps, _⟩ := collapse_keeps h.valid h.nodup
  have drains : ∀ s, (c.graph n).Reach n.start s → (c.graph n).Reach s c.accept :=
    fun s here => keeps.shrinks.leads here (h.drains s (keeps.shrinks.reach here))
  refine ⟨c.merged, _, hc, ?_⟩
  exact {
    valid := keeps.valid h.valid
    nodup := keeps.sound.nodup
    free := (keeps.marks n.start).trans h.free
    unentered := keeps.shrinks.unentered h.unentered
    accept := drains n.start .refl
    drains := drains }

theorem draft_trim {p : Pattern} (living : p.branches ≠ [] ∧ branchesLively p.branches)
    (room : p.footprint ≤ words) : ∃ n, Nfa.draft p = .ok n ∧ n.Trim := by
  obtain ⟨f, d, hb, _, builds, free⟩ := Draft.branches_builds p.branches Draft.Sound.empty
    (by rw [show Draft.empty.arena.size = 0 from rfl, Nat.zero_add]; exact room)
  have trim := builds.trim living
  have sound := trim.sound.arena
  refine ⟨⟨d.arena, d.guards, f.start, f.stop⟩, ?_, ?_⟩
  · rw [draft, hb]
    rfl
  · exact {
      valid := ⟨builds.holds.start.2, builds.holds.stop.2, sound.edges, sound.marks⟩
      nodup := sound.nodup
      free := free
      unentered := fun s _ => trim.unentered s
      accept := trim.drains f.start .refl
      drains := trim.drains }

end Nfa

/-- **The automaton of a pattern that is read has no dead end**, and neither has any fragment that
it is put together from: not those of its guards, nor those of terms, rows and lists of branches at
any depth, whatever was drafted before them, while there are ids for their states. They have few of
those: no more than a pattern may expand into. -/
theorem ofPattern_trim {source : String} {p : Pattern} (h : Pattern.parse source = .ok p) :
    (∃ n, Nfa.ofPattern p = .ok n ∧ n.Trim) ∧
      ∀ node, p.Contains node → node.footprint ≤ expansionLimit ∧
        ∀ draft ∈ node.drafts, ∀ d : Draft, d.Sound → d.arena.size + node.footprint ≤ words →
          ∃ f d', draft d = .ok (f, d') ∧ d.Trim d' f := by
  obtain ⟨derived, _⟩ := parse_eq_ok_iff.mp h
  obtain ⟨drafted, hd, trim⟩ := Nfa.draft_trim derived.lively (footprint_le_words h)
  obtain ⟨merged, n, hc, trim'⟩ := trim.collapse
  constructor
  · refine ⟨n, ?_, trim'⟩
    rw [Nfa.ofPattern, hd, ok_bind, hc]
    rfl
  · intro node inside
    obtain ⟨derived, small, _⟩ := inside.derived h
    obtain ⟨few, _, least⟩ := footprint_le_expansion (derived.read small)
    exact ⟨Nat.le_trans node.footprint_le_alone (Nat.le_trans few least),
      Node.drafts_trim derived⟩

/-- `(a{0}b|(c*){2,3}){0,2}d+`, where no copy of `a` is taken and loops are cloned. -/
def looped : Pattern :=
  let a : Term := .guard (.item ⟨.literal 'a', "a"⟩) ⟨0, some 0⟩ "a{0}b"
  let b : Term := .guard (.item ⟨.literal 'b', "b"⟩) .once "b"
  let c : Term := .guard (.item ⟨.literal 'c', "c"⟩) ⟨0, none⟩ "c*"
  let d : Term := .guard (.item ⟨.literal 'd', "d"⟩) ⟨1, none⟩ "d+"
  let inner : Term := .group [[c]] "c*" ⟨2, some 3⟩ "(c*){2,3}"
  ⟨[[.group [[a, b], [inner]] "a{0}b|(c*){2,3}" ⟨0, some 2⟩ "(a{0}b|(c*){2,3}){0,2}d+", d]],
    "(a{0}b|(c*){2,3}){0,2}d+"⟩

theorem looped_trim : Pattern.parse "(a{0}b|(c*){2,3}){0,2}d+" = .ok looped ∧
    (∃ n, Nfa.ofPattern looped = .ok n ∧ n.Trim) ∧
      ∀ node, looped.Contains node → node.footprint ≤ expansionLimit ∧
        ∀ draft ∈ node.drafts, ∀ d : Draft, d.Sound → d.arena.size + node.footprint ≤ words →
          ∃ f d', draft d = .ok (f, d') ∧ d.Trim d' f :=
  have read : Pattern.parse "(a{0}b|(c*){2,3}){0,2}d+" = .ok looped := by cbv
  ⟨read, ofPattern_trim read⟩

end WholeMatch
