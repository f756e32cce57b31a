import Mathlib
import WholeMatch.Proofs.Readings

namespace WholeMatch

open Grammar

/-- A node of a pattern tree. A row is a term with the terms that stand behind it in its branch. -/
inductive Node where
  | choice (branches : List Branch) (label : String)
  | row (t : Term) (behind : Branch)
  | guard (g : Guard)

/-- The label of a branch is that of its first term. -/
def branchLabel : Branch → String
  | [] => ""
  | t :: _ => t.label

/-- What is written of a term before its repetition. -/
def Term.atomText : Term → String
  | .guard g _ _ => g.label
  | .group _ inner _ _ => "(" ++ inner ++ ")"

namespace Node

def label : Node → String
  | choice _ label => label
  | row t _ => t.label
  | guard g => g.label

def ofBranch : Branch → List Node
  | [] => []
  | t :: ts => [row t ts]

/-- What the repetition of a term applies to. -/
def ofTerm : Term → Node
  | .guard g _ _ => guard g
  | .group branches inner _ _ => choice branches inner

/-- The nodes that a node is made of. -/
def parts : Node → List Node
  | choice branches _ => branches.flatMap ofBranch
  | row t ts => ofTerm t :: ofBranch ts
  | guard _ => []

/-- The pattern that is this node and nothing else. -/
def alone : Node → Pattern
  | choice branches label => ⟨branches, label⟩
  | row t ts => ⟨[t :: ts], t.label⟩
  | guard g => ⟨[[.guard g .once g.label]], g.label⟩

/-- The label of a node is put together from those of its parts, and from what is written between
them. -/
def Spelled : Node → Prop
  | choice branches label => label = "|".intercalate (branches.map branchLabel)
  | row t ts => ∃ q, Repetition q t.rep ∧ t.label = t.atomText ++ String.ofList q ++ branchLabel ts
  | guard (.item i) => Symbol .own i.label.toList i
  | guard (.charset s) => ∃ w, Entries .own w s.items ∧ w = s.items.flatMap (·.label.toList) ∧
      s.label = String.ofList ('[' :: (caret s.negated ++ w ++ [']']))

/-- The label of a node derives the node. -/
def Derived : Node → Prop
  | choice branches label => Choice .own label.toList branches
  | row t ts => Row .own t.label.toList (t :: ts)
  | guard g => Single .own g.label.toList g

end Node

/-- The node is the whole pattern, or found in it at some depth. -/
def Pattern.Contains (p : Pattern) (n : Node) : Prop :=
  Relation.ReflTransGen (fun n m : Node => m ∈ n.parts) (.choice p.branches p.label) n

theorem Grammar.Symbol.label_eq {w : List Char} {i : Item} (h : Symbol .own w i) :
    i.label = String.ofList w :=
  (symbol_cases h).1

theorem Grammar.Single.label_eq {w : List Char} {g : Guard} (h : Single .own w g) :
    g.label = String.ofList w :=
  h.written.label_eq

theorem Grammar.Row.label_eq {w : List Char} {ts : List Term} (h : Row .own w ts) :
    branchLabel ts = String.ofList w := by
  cases h with
  | last _ named => exact named
  | cons _ _ named => exact named

theorem Grammar.Entries.spelled {w : List Char} {items : List Item} (h : Entries .own w items) :
    w = items.flatMap (·.label.toList) := by
  induction h with
  | nil => rfl
  | escape _ named _ ih =>
    have named : _ = String.ofList _ := named
    simp [named, ← ih]
  | range _ _ named _ ih =>
    have named : _ = String.ofList _ := named
    simp [named, ← ih]
  | literal _ _ named _ ih =>
    have named : _ = String.ofList _ := named
    simp [named, ← ih]

theorem Grammar.Choice.spelled {bs : List (List Term)} : ∀ {w : List Char}, Choice .own w bs →
    w = ['|'].intercalate (bs.map fun b => (branchLabel b).toList) := by
  induction bs with
  | nil => nofun
  | cons b bs ih =>
    intro w h
    cases h with
    | last row => simp [row.label_eq]
    | cons row others =>
      cases bs with
      | nil => cases others
      | cons b' bs =>
        have rest := ih others
        simp only [List.map_cons] at rest ⊢
        rw [List.intercalate_cons_cons, ← rest, row.label_eq]
        simp

/-- What a term is written as: its atom, which derives it, and then its repetition. -/
theorem Grammar.Piece.split {w : List Char} {t : Term} (h : Piece .own w t) :
    (Node.ofTerm t).Derived ∧
      ∃ q, Repetition q t.rep ∧ String.ofList w = t.atomText ++ String.ofList q := by
  cases h with
  | guard single often =>
    constructor
    · rw [Node.ofTerm, Node.Derived, single.label_eq, String.toList_ofList]
      exact single
    · refine ⟨_, often, ?_⟩
      rw [Term.atomText, single.label_eq, String.ofList_append]
  | group inside named often =>
    have named : _ = String.ofList _ := named
    constructor
    · rw [Node.ofTerm, Node.Derived, named, String.toList_ofList]
      exact inside
    · refine ⟨_, often, ?_⟩
      rw [Term.atomText, named]
      simp [String.ofList_append, String.append_assoc]

theorem Grammar.Row.derived {w : List Char} {ts : List Term} (h : Row .own w ts) :
    ∀ m ∈ Node.ofBranch ts, m.Derived := by
  cases ts with
  | nil => simp [Node.ofBranch]
  | cons t ts =>
    have named : t.label = String.ofList w := h.label_eq
    intro m hm
    obtain rfl := List.mem_singleton.mp hm
    rw [Node.Derived, named, String.toList_ofList]
    exact h

/-- A row is written as its first term and then as the row behind it, if there is one. -/
theorem Grammar.Row.split {w : List Char} {t : Term} {ts : List Term} (h : Row .own w (t :: ts)) :
    (Node.ofTerm t).Derived ∧ (∀ m ∈ Node.ofBranch ts, m.Derived) ∧
      ∃ q, Repetition q t.rep ∧
        String.ofList w = t.atomText ++ String.ofList q ++ branchLabel ts := by
  cases h with
  | last piece _ =>
    obtain ⟨atom, q, often, text⟩ := piece.split
    refine ⟨atom, by simp [Node.ofBranch], q, often, ?_⟩
    rw [text, branchLabel, String.append_empty]
  | cons piece rest _ =>
    obtain ⟨atom, q, often, text⟩ := piece.split
    refine ⟨atom, rest.derived, q, often, ?_⟩
    rw [String.ofList_append, text, rest.label_eq]

theorem Grammar.Choice.rows {bs : List (List Term)} : ∀ {w : List Char}, Choice .own w bs →
    ∀ m ∈ bs.flatMap Node.ofBranch, m.Derived := by
  induction bs with
  | nil => nofun
  | cons b bs ih =>
    intro w h m hm
    rcases List.mem_append.mp hm with first | later
    · cases h with
      | last row => exact row.derived m first
      | cons row _ => exact row.derived m first
    · cases h with
      | last _ => cases later
      | cons _ others => exact ih others m later

theorem infix_intercalate {α : Type} (sep : List α) {w : List α} {ws : List (List α)}
    (h : w ∈ ws) : w <:+: sep.intercalate ws := by
  induction ws with
  | nil => cases h
  | cons v ws ih =>
    cases ws with
    | nil =>
      obtain rfl := List.mem_singleton.mp h
      have whole : sep.intercalate [w] = w := List.intercalate_singleton
      exact whole.symm ▸ List.infix_rfl
    | cons v' ws =>
      rw [List.intercalate_cons_cons]
      rcases List.mem_cons.mp h with rfl | h
      · exact ((List.prefix_append _ _).trans (List.prefix_append _ _)).isInfix
      · exact (ih h).trans (List.suffix_append _ _).isInfix

namespace Node

variable {n m : Node}

/-- **The parts of a node that is derived from its label** are derived from theirs. -/
theorem Derived.part (h : n.Derived) (hm : m ∈ n.parts) : m.Derived := by
  cases n with
  | choice branches label =>
    have derived : Choice .own label.toList branches := h
    exact derived.rows m hm
  | row t ts =>
    have derived : Row .own t.label.toList (t :: ts) := h
    obtain ⟨atom, rest, _⟩ := derived.split
    rcases List.mem_cons.mp hm with rfl | hm
    · exact atom
    · exact rest m hm
  | guard g => cases hm

/-- A node that is derived from its label is spelled. -/
theorem Derived.spelled (h : n.Derived) : n.Spelled := by
  cases n with
  | choice branches label =>
    have derived : Choice .own label.toList branches := h
    apply String.toList_injective
    rw [String.toList_intercalate, derived.spelled, List.map_map]
    rfl
  | row t ts =>
    have derived : Row .own t.label.toList (t :: ts) := h
    obtain ⟨_, _, q, often, text⟩ := derived.split
    rw [String.ofList_toList] at text
    exact ⟨q, often, text⟩
  | guard g =>
    cases g with
    | item i =>
      have derived : Single .own i.label.toList (.item i) := h
      cases derived with
      | item symbol => exact symbol
    | charset s =>
      have derived : Single .own s.label.toList (.charset s) := h
      generalize s.label.toList = w at derived
      cases derived with
      | charset bracket =>
        cases bracket with
        | intro _ _ inside _ named => exact ⟨_, inside, inside.spelled, named⟩

theorem label_ofBranch {b : Branch} (hm : m ∈ ofBranch b) : m.label = branchLabel b := by
  cases b with
  | nil => cases hm
  | cons t ts => rw [List.mem_singleton.mp hm]; rfl

theorem infix_ofTerm (t : Term) : (ofTerm t).label.toList <:+: t.atomText.toList := by
  cases t with
  | guard g rep label => exact List.infix_rfl
  | group bs inner rep label => exact ⟨['('], [')'], by simp [ofTerm, Node.label, Term.atomText]⟩

/-- The label of a part is found in that of the whole. -/
theorem Spelled.part (h : n.Spelled) (hm : m ∈ n.parts) : m.label.toList <:+: n.label.toList := by
  cases n with
  | choice branches label =>
    have text : (choice branches label).label = _ := h
    obtain ⟨b, hb, hm⟩ := List.mem_flatMap.mp hm
    have named : m.label ∈ branches.map branchLabel :=
      List.mem_map.mpr ⟨b, hb, (label_ofBranch hm).symm⟩
    rw [text, String.toList_intercalate]
    exact infix_intercalate _ (List.mem_map_of_mem named)
  | row t ts =>
    obtain ⟨q, _, text⟩ := h
    have text : (row t ts).label = _ := text
    rw [text, String.toList_append, String.toList_append]
    rcases List.mem_cons.mp hm with rfl | hm
    · have atom := infix_ofTerm t
      exact atom.trans ((List.prefix_append _ _).trans (List.prefix_append _ _)).isInfix
    · rw [label_ofBranch hm]
      exact (List.suffix_append _ _).isInfix
  | guard g => cases hm

theorem le_of_saturate {a m : Nat} (h : saturate a ≤ m) (small : m < wordMax) : a ≤ m := by
  unfold saturate at h
  omega

theorem branchExpansion_le {bs : List Branch} {b : Branch} {k : Nat} (hb : b ∈ bs)
    (h : branchesExpansion bs ≤ k) (small : k < wordMax) : branchExpansion b ≤ k := by
  induction bs with
  | nil => cases hb
  | cons b' bs ih =>
    have sum : branchExpansion b' + branchesExpansion bs ≤ k := le_of_saturate h small
    rcases List.mem_cons.mp hb with rfl | hb
    · omega
    · exact ih hb (by omega)

theorem le_of_repeated {rep : Repeat} {a k : Nat} (h : rep.expansion a ≤ k) (small : k < wordMax) :
    a ≤ k := by
  have padded := le_of_saturate h small
  have copies : a * Nat.max (rep.max.getD rep.min) 1 ≤ k := le_of_saturate (by omega) small
  exact Nat.le_trans (Nat.le_mul_of_pos_right a (Nat.le_max_right _ 1)) copies

/-- A branch alone expands into as much as it does among others, and an entry and an exit. -/
theorem small_ofBranch {b : Branch} {k : Nat} (h : 2 + branchExpansion b ≤ k) :
    ∀ m ∈ ofBranch b, m.alone.expansion ≤ k := by
  intro m hm
  cases b with
  | nil => cases hm
  | cons t ts =>
    obtain rfl := List.mem_singleton.mp hm
    simp only [alone, Pattern.expansion, branchesExpansion, saturate]
    omega

/-- A guard alone is as small as can be, and a group alone expands into less than it does with what
is around it. -/
theorem small_ofTerm {t : Term} {k : Nat} (h : t.expansion ≤ k) (small : k < wordMax) :
    (ofTerm t).alone.expansion ≤ max k 6 := by
  cases t with
  | guard g rep label => exact Nat.le_max_right k 6
  | group bs inner rep label => exact Nat.le_trans (le_of_repeated h small) (Nat.le_max_left k 6)

/-- **No part expands past what the whole keeps to.** -/
theorem small_part (h : n.alone.expansion ≤ expansionLimit) (hm : m ∈ n.parts) :
    m.alone.expansion ≤ expansionLimit := by
  have small : expansionLimit < wordMax := by decide
  cases n with
  | choice branches label =>
    have whole : 2 + branchesExpansion branches ≤ expansionLimit := le_of_saturate h small
    obtain ⟨b, hb, hm⟩ := List.mem_flatMap.mp hm
    have branch : branchExpansion b ≤ branchesExpansion branches :=
      branchExpansion_le hb (Nat.le_refl _) (by omega)
    exact small_ofBranch (by omega) m hm
  | row t ts =>
    have whole : 2 + branchesExpansion [t :: ts] ≤ expansionLimit := le_of_saturate h small
    have first : branchExpansion (t :: ts) ≤ branchesExpansion [t :: ts] :=
      branchExpansion_le (List.mem_singleton.mpr rfl) (Nat.le_refl _) (by omega)
    have sum : t.expansion + branchExpansion ts ≤ branchesExpansion [t :: ts] :=
      le_of_saturate first (by omega)
    rcases List.mem_cons.mp hm with rfl | hm
    · have atom : (ofTerm t).alone.expansion ≤ max expansionLimit 6 :=
        small_ofTerm (by omega) small
      exact Nat.le_trans atom (by decide)
    · exact small_ofBranch (by omega) m hm
  | guard g => cases hm

/-- What a label derives, it is read as. -/
theorem Derived.read (h : n.Derived) (small : n.alone.expansion ≤ expansionLimit) :
    Pattern.parse n.label = .ok n.alone := by
  cases n with
  | choice branches label => exact parse_eq_ok_iff.mpr ⟨h, rfl, small⟩
  | row t ts => exact parse_eq_ok_iff.mpr ⟨.last h, rfl, small⟩
  | guard g =>
    have single : Single .own g.label.toList g := h
    have piece : Piece .own (g.label.toList ++ []) (.guard g .once g.label) :=
      .guard single .once
    rw [List.append_nil] at piece
    exact parse_eq_ok_iff.mpr ⟨.last (.last piece String.ofList_toList.symm), rfl, small⟩

end Node

theorem Pattern.Contains.derived {source : String} {p : Pattern} {n : Node}
    (h : Pattern.parse source = .ok p) (hn : p.Contains n) :
    n.Derived ∧ n.alone.expansion ≤ expansionLimit ∧ n.label.toList <:+: source.toList := by
  induction hn with
  | refl =>
    obtain ⟨derived, named, small⟩ := parse_eq_ok_iff.mp h
    subst named
    exact ⟨derived, small, List.infix_rfl⟩
  | tail _ part ih =>
    obtain ⟨derived, small, inside⟩ := ih
    exact ⟨derived.part part, Node.small_part small part, (derived.spelled.part part).trans inside⟩

/-- **Labels are read back.** In a pattern that is read from text, the label of every node is the
piece of the text that it was read from, spelled out by the nodes it is made of, and is read, by
itself, as that node with all its labels. So guards with one label are one guard. -/
theorem labels_read_back {source : String} {p : Pattern} (h : Pattern.parse source = .ok p) :
    p.label = source ∧
      (∀ n, p.Contains n → n.Spelled ∧ n.label.toList <:+: source.toList ∧
        Pattern.parse n.label = .ok n.alone) ∧
      ∀ g g', p.Contains (.guard g) → p.Contains (.guard g') → g.label = g'.label → g = g' := by
  have read : ∀ n, p.Contains n → Pattern.parse n.label = .ok n.alone := by
    intro n hn
    obtain ⟨derived, small, _⟩ := hn.derived h
    exact derived.read small
  refine ⟨(parse_eq_ok_iff.mp h).2.1, ?_, ?_⟩
  · intro n hn
    obtain ⟨derived, _, inside⟩ := hn.derived h
    exact ⟨derived.spelled, inside, read n hn⟩
  · intro g g' hg hg' same
    have label : (Node.guard g).label = (Node.guard g').label := same
    have first := read _ hg
    rw [label, read _ hg'] at first
    have alone : (Node.guard g').alone = (Node.guard g).alone := Except.ok.inj first
    simp only [Node.alone, Pattern.mk.injEq, List.cons.injEq, Term.guard.injEq] at alone
    exact alone.1.1.1.1.symm

/-- `([)\]]|(\d|a){0,2}b)*`, where a class hides what would close the group around it. -/
def nestedLabels : Pattern :=
  let brackets : Guard := .charset ⟨false, [⟨.literal ')', ")"⟩, ⟨.literal ']', "\\]"⟩], "[)\\]]"⟩
  let digit : Guard := .item ⟨.named .digit, "\\d"⟩
  let a : Guard := .item ⟨.literal 'a', "a"⟩
  let b : Guard := .item ⟨.literal 'b', "b"⟩
  let inner : Term := .group [[.guard digit .once "\\d"], [.guard a .once "a"]] "\\d|a" ⟨0, some 2⟩
    "(\\d|a){0,2}b"
  ⟨[[.group [[.guard brackets .once "[)\\]]"], [inner, .guard b .once "b"]]
      "[)\\]]|(\\d|a){0,2}b" ⟨0, none⟩ "([)\\]]|(\\d|a){0,2}b)*"]],
    "([)\\]]|(\\d|a){0,2}b)*"⟩

theorem nested_labels_read_back :
    Pattern.parse "([)\\]]|(\\d|a){0,2}b)*" = .ok nestedLabels ∧
      nestedLabels.label = "([)\\]]|(\\d|a){0,2}b)*" ∧
      (∀ n, nestedLabels.Contains n → n.Spelled ∧
        n.label.toList <:+: "([)\\]]|(\\d|a){0,2}b)*".toList ∧
        Pattern.parse n.label = .ok n.alone) ∧
      ∀ g g', nestedLabels.Contains (.guard g) → nestedLabels.Contains (.guard g') →
        g.label = g'.label → g = g' :=
  have read : Pattern.parse "([)\\]]|(\\d|a){0,2}b)*" = .ok nestedLabels := by cbv
  ⟨read, labels_read_back read⟩

end WholeMatch
