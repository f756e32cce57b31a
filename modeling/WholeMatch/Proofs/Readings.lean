import WholeMatch.Proofs.Drafting
import WholeMatch.Proofs.Labels
import WholeMatch.Proofs.Parsing

namespace WholeMatch

open Grammar

mutual

/-- The guards of the term were written as they are labelled, and no bounds are reversed. -/
def Term.WellRead : Term → Prop
  | .guard g rep _ => (∃ w, g.Written w) ∧ rep.Ordered
  | .group bs _ rep _ => branchesWellRead bs ∧ rep.Ordered

def branchWellRead : List Term → Prop
  | [] => True
  | t :: ts => t.WellRead ∧ branchWellRead ts

def branchesWellRead : List (List Term) → Prop
  | [] => True
  | b :: bs => branchWellRead b ∧ branchesWellRead bs

end

theorem Grammar.Repetition.ordered {w : List Char} {rep : Repeat} (h : Repetition w rep) :
    rep.Ordered := by
  intro m hm
  cases h with
  | plus | star | atLeast => cases hm
  | once | exactly =>
    cases hm
    exact Nat.le_refl _
  | option =>
    cases hm
    exact Nat.zero_le 1
  | between _ _ ordered =>
    cases hm
    exact ordered

mutual

theorem Grammar.Piece.wellRead {w : List Char} {t : Term} (h : Piece .own w t) : t.WellRead := by
  match h with
  | .guard single often => exact ⟨⟨_, single.written⟩, often.ordered⟩
  | .group inside _ often => exact ⟨inside.wellRead, often.ordered⟩

theorem Grammar.Row.wellRead {w : List Char} {ts : List Term} (h : Row .own w ts) :
    branchWellRead ts := by
  match h with
  | .last piece _ => exact ⟨piece.wellRead, trivial⟩
  | .cons piece rest _ => exact ⟨piece.wellRead, rest.wellRead⟩

/-- **What is derived** is well read, when it is labelled with what it is derived from. -/
theorem Grammar.Choice.wellRead {w : List Char} {bs : List (List Term)} (h : Choice .own w bs) :
    branchesWellRead bs := by
  match h with
  | .last row => exact ⟨row.wellRead, trivial⟩
  | .cons row others => exact ⟨row.wellRead, others.wellRead⟩

end

theorem parse_wellRead {source : String} {p : Pattern} (h : Pattern.parse source = .ok p) :
    branchesWellRead p.branches :=
  (parse_eq_ok_iff.mp h).1.wellRead

mutual

theorem Term.WellRead.guards (t : Term) (h : t.WellRead) : ∀ g ∈ t.guards, ∃ w, g.Written w := by
  match t with
  | .guard g _ _ => simpa only [Term.guards, List.mem_singleton, forall_eq] using h.1
  | .group bs _ _ _ => exact wellRead_guards bs h.1

theorem branchWellRead_guards (ts : List Term) (h : branchWellRead ts) :
    ∀ g ∈ branchGuards ts, ∃ w, g.Written w := by
  match ts with
  | [] => simp [branchGuards]
  | t :: ts =>
    rw [branchGuards, List.forall_mem_append]
    exact ⟨Term.WellRead.guards t h.1, branchWellRead_guards ts h.2⟩

theorem wellRead_guards (bs : List (List Term)) (h : branchesWellRead bs) :
    ∀ g ∈ branchesGuards bs, ∃ w, g.Written w := by
  match bs with
  | [] => simp [branchesGuards]
  | b :: bs =>
    rw [branchesGuards, List.forall_mem_append]
    exact ⟨branchWellRead_guards b h.1, wellRead_guards bs h.2⟩

end

theorem wellRead_plain {bs : List (List Term)} (h : branchesWellRead bs) :
    plainBranches bs = true := by
  rw [plainBranches_iff_guards]
  intro g hg
  obtain ⟨w, written⟩ := wellRead_guards bs h g hg
  exact written.plain

mutual

theorem Term.WellRead.spans (t : Term) (h : t.WellRead) (text : Array Char) (i j : Nat) :
    t.Spans Repeat.Copies text i j ↔ t.Spans Repeat.Allows text i j := by
  match t with
  | .guard g rep _ => simp only [Term.Spans, Repeat.copies_iff_allows h.2]
  | .group bs _ rep _ =>
    simp only [Term.Spans, Repeat.copies_iff_allows h.2]
    exact exists_congr fun k => and_congr_right fun _ =>
      Power.congr fun p q => wellRead_spans bs h.1 text p q

theorem branchWellRead_spans (ts : List Term) (h : branchWellRead ts) (text : Array Char)
    (i j : Nat) :
    spansBranch Repeat.Copies text ts i j ↔ spansBranch Repeat.Allows text ts i j := by
  match ts with
  | [] => rfl
  | t :: ts =>
    simp only [spansBranch, Term.WellRead.spans t h.1 text, branchWellRead_spans ts h.2 text]

/-- Where no bounds are reversed, it is the same to take them as they stand and to take the lower
one first. -/
theorem wellRead_spans (bs : List (List Term)) (h : branchesWellRead bs) (text : Array Char)
    (i j : Nat) :
    spansBranches Repeat.Copies text bs i j ↔ spansBranches Repeat.Allows text bs i j := by
  match bs with
  | [] => rfl
  | b :: bs =>
    simp only [spansBranches, branchWellRead_spans b h.1 text, wellRead_spans bs h.2 text]

end

end WholeMatch
