import WholeMatch.Pattern.Expansion
import WholeMatch.Pattern.Malformed

namespace WholeMatch

/-- What is asked of the label of a node that stands for some characters. -/
abbrev Labelling := String → List Char → Prop

namespace Labelling

/-- Any label will do. -/
def any : Labelling := fun _ _ => True

/-- A node is labelled with the characters it stands for. -/
def own : Labelling := fun label w => label = String.ofList w

end Labelling

namespace Grammar

/-- The decimal digits of a number that a repetition may name. Zeros may lead. -/
structure Numeral (w : List Char) (n : Nat) : Prop where
  nonempty : w ≠ []
  digits : ∀ c ∈ w, c.isDigit = true
  value : Nat.ofDigitChars 10 w 0 = n
  bounded : n ≤ repeatLimit

/-- A repetition. Where none is written, there is one copy. -/
inductive Repetition : List Char → Repeat → Prop
  | once : Repetition [] ⟨1, some 1⟩
  | plus : Repetition ['+'] ⟨1, none⟩
  | star : Repetition ['*'] ⟨0, none⟩
  | option : Repetition ['?'] ⟨0, some 1⟩
  | exactly {w : List Char} {m : Nat} (count : Numeral w m) :
      Repetition ('{' :: (w ++ ['}'])) ⟨m, some m⟩
  | atLeast {w : List Char} {m : Nat} (least : Numeral w m) :
      Repetition ('{' :: (w ++ [',', '}'])) ⟨m, none⟩
  | between {w v : List Char} {m n : Nat} (least : Numeral w m) (most : Numeral v n)
      (ordered : m ≤ n) : Repetition ('{' :: (w ++ ',' :: (v ++ ['}']))) ⟨m, some n⟩

/-- What a character means behind a backslash. There are no boundaries inside a class. -/
inductive Escape (inClass : Bool) : Char → Test → Prop
  | digit : Escape inClass 'd' (.named .digit)
  | notDigit : Escape inClass 'D' (.named .notDigit)
  | word : Escape inClass 'w' (.named .word)
  | notWord : Escape inClass 'W' (.named .notWord)
  | space : Escape inClass 's' (.named .space)
  | notSpace : Escape inClass 'S' (.named .notSpace)
  | tab : Escape inClass 't' (.literal '\t')
  | carriageReturn : Escape inClass 'r' (.literal '\r')
  | newline : Escape inClass 'n' (.literal '\n')
  | boundary (outside : inClass = false) : Escape inClass 'b' (.assertion .boundary)
  | nonBoundary (outside : inClass = false) : Escape inClass 'B' (.assertion .nonBoundary)
  | itself {c : Char} (special : c ∈ ['\\', '.', '*', '+', '?', '{', '}', '[', ']', '(', ')', '^',
      '$', '|', '-']) : Escape inClass c (.literal c)

variable (L : Labelling)

/-- An item outside a class. A character that has no other use stands for itself. -/
inductive Symbol : List Char → Item → Prop
  | any {label : String} (named : L label ['.']) : Symbol ['.'] ⟨.named .any, label⟩
  | lineBegin {label : String} (named : L label ['^']) :
      Symbol ['^'] ⟨.assertion .lineBegin, label⟩
  | lineEnd {label : String} (named : L label ['$']) : Symbol ['$'] ⟨.assertion .lineEnd, label⟩
  | escape {c : Char} {test : Test} {label : String} (means : Escape false c test)
      (named : L label ['\\', c]) : Symbol ['\\', c] ⟨test, label⟩
  | literal {c : Char} {label : String}
      (ordinary : c ∉ ['.', '^', '$', '\\', '(', ')', '[', '|', '*', '+', '?', '{'])
      (named : L label [c]) : Symbol [c] ⟨.literal c, label⟩

/-- No bracket closes a class before these characters end. -/
inductive Unclosed : List Char → Prop
  | nil : Unclosed []
  | escape {c : Char} {w : List Char} (rest : Unclosed w) : Unclosed ('\\' :: c :: w)
  | cons {c : Char} {w : List Char} (plain : c ≠ '\\') (inside : c ≠ ']') (rest : Unclosed w) :
      Unclosed (c :: w)

/-- The items of a class. A letter or digit before a dash and one more character begins a range. -/
inductive Entries : List Char → List Item → Prop
  | nil : Entries [] []
  | escape {c : Char} {test : Test} {label : String} {w : List Char} {items : List Item}
      (means : Escape true c test) (named : L label ['\\', c]) (rest : Entries w items) :
      Entries ('\\' :: c :: w) (⟨test, label⟩ :: items)
  | range {lo hi : Char} {label : String} {w : List Char} {items : List Item}
      (oneKind : lo.isAlpha = true ∧ hi.isAlpha = true ∨ lo.isDigit = true ∧ hi.isDigit = true)
      (ascending : lo ≤ hi) (named : L label [lo, '-', hi]) (rest : Entries w items) :
      Entries (lo :: '-' :: hi :: w) (⟨.range lo hi, label⟩ :: items)
  | literal {c : Char} {label : String} {w : List Char} {items : List Item} (plain : c ≠ '\\')
      (alone : c.isAlphanum = true → ∀ hi v, w ≠ '-' :: hi :: v) (named : L label [c])
      (rest : Entries w items) : Entries (c :: w) (⟨.literal c, label⟩ :: items)

/-- The caret of a class that is negated. -/
def caret : Bool → List Char
  | true => ['^']
  | false => []

/-- A class runs to the first bracket that is not escaped, and has an item. A caret that comes first
negates it. -/
inductive Bracket : List Char → Charset → Prop
  | intro {negated : Bool} {w : List Char} {items : List Item} {label : String}
      (first : negated = false → w.head? ≠ some '^') (unclosed : Unclosed w)
      (inside : Entries L w items) (nonempty : items ≠ [])
      (named : L label ('[' :: (caret negated ++ w ++ [']']))) :
      Bracket ('[' :: (caret negated ++ w ++ [']'])) ⟨negated, items, label⟩

/-- The test of a term that is no group. -/
inductive Single : List Char → Guard → Prop
  | item {w : List Char} {i : Item} (symbol : Symbol L w i) : Single w (.item i)
  | charset {w : List Char} {s : Charset} (bracket : Bracket L w s) : Single w (.charset s)

mutual

/-- A term, whose own label goes on behind it. -/
inductive Piece : List Char → Term → Prop
  | guard {u q : List Char} {g : Guard} {rep : Repeat} {label : String} (single : Single L u g)
      (often : Repetition q rep) : Piece (u ++ q) (.guard g rep label)
  | group {u q : List Char} {bs : List (List Term)} {inner label : String} {rep : Repeat}
      (inside : Choice u bs) (named : L inner u) (often : Repetition q rep) :
      Piece ('(' :: (u ++ [')']) ++ q) (.group bs inner rep label)

/-- One branch: terms in a row, each labelled with what is left of the branch. -/
inductive Row : List Char → List Term → Prop
  | last {u : List Char} {t : Term} (piece : Piece u t) (named : L t.label u) : Row u [t]
  | cons {u w : List Char} {t : Term} {ts : List Term} (piece : Piece u t) (rest : Row w ts)
      (named : L t.label (u ++ w)) : Row (u ++ w) (t :: ts)

/-- Branches with bars between them. -/
inductive Choice : List Char → List (List Term) → Prop
  | last {u : List Char} {b : List Term} (row : Row u b) : Choice u [b]
  | cons {u w : List Char} {b : List Term} {bs : List (List Term)} (row : Row u b)
      (others : Choice w bs) : Choice (u ++ '|' :: w) (b :: bs)

end

end Grammar

def Item.bare (i : Item) : Item := ⟨i.test, ""⟩

def Charset.bare (s : Charset) : Charset := ⟨s.negated, s.items.map Item.bare, ""⟩

def Guard.bare : Guard → Guard
  | .item i => .item i.bare
  | .charset s => .charset s.bare

mutual

def Term.bare : Term → Term
  | .guard g rep _ => .guard g.bare rep ""
  | .group bs _ rep _ => .group (bareBranches bs) "" rep ""

def bareBranch : List Term → List Term
  | [] => []
  | t :: ts => t.bare :: bareBranch ts

def bareBranches : List (List Term) → List (List Term)
  | [] => []
  | b :: bs => bareBranch b :: bareBranches bs

end

/-- The pattern with all labels blank. -/
def Pattern.bare (p : Pattern) : Pattern := ⟨bareBranches p.branches, ""⟩

mutual

theorem Term.expansion_bare (t : Term) : t.bare.expansion = t.expansion := by
  match t with
  | .guard _ _ _ => rfl
  | .group bs _ _ _ => rw [Term.bare, Term.expansion, Term.expansion, branchesExpansion_bare bs]

theorem branchExpansion_bare (ts : List Term) :
    branchExpansion (bareBranch ts) = branchExpansion ts := by
  match ts with
  | [] => rfl
  | t :: ts =>
    rw [bareBranch, branchExpansion, branchExpansion, Term.expansion_bare t,
      branchExpansion_bare ts]

theorem branchesExpansion_bare (bs : List (List Term)) :
    branchesExpansion (bareBranches bs) = branchesExpansion bs := by
  match bs with
  | [] => rfl
  | b :: bs =>
    rw [bareBranches, branchesExpansion, branchesExpansion, branchExpansion_bare b,
      branchesExpansion_bare bs]

end

theorem Pattern.expansion_bare (p : Pattern) : p.bare.expansion = p.expansion := by
  rw [Pattern.expansion, Pattern.expansion, Pattern.bare, branchesExpansion_bare]

namespace Grammar

variable {L : Labelling}

theorem Symbol.relabel {w : List Char} {i : Item} (h : Symbol L w i) :
    Symbol .own w ⟨i.test, String.ofList w⟩ := by
  cases h with
  | any => exact .any rfl
  | lineBegin => exact .lineBegin rfl
  | lineEnd => exact .lineEnd rfl
  | escape means => exact .escape means rfl
  | literal ordinary => exact .literal ordinary rfl

theorem Symbol.apart {w : List Char} {i i' : Item} (h : Symbol L w i) (same : i.bare = i'.bare) :
    Symbol .any w i' := by
  obtain ⟨test, label⟩ := i'
  cases h with
  | any => cases same; exact .any trivial
  | lineBegin => cases same; exact .lineBegin trivial
  | lineEnd => cases same; exact .lineEnd trivial
  | escape means => cases same; exact .escape means trivial
  | literal ordinary => cases same; exact .literal ordinary trivial

theorem Entries.relabel {w : List Char} {items : List Item} (h : Entries L w items) :
    ∃ items', Entries .own w items' ∧ items'.map Item.bare = items.map Item.bare := by
  induction h with
  | nil => exact ⟨[], .nil, rfl⟩
  | escape means _ _ ih =>
    obtain ⟨items', h', same⟩ := ih
    exact ⟨_, .escape means rfl h', by rw [List.map_cons, List.map_cons, same]; rfl⟩
  | range oneKind ascending _ _ ih =>
    obtain ⟨items', h', same⟩ := ih
    exact ⟨_, .range oneKind ascending rfl h', by rw [List.map_cons, List.map_cons, same]; rfl⟩
  | literal plain alone _ _ ih =>
    obtain ⟨items', h', same⟩ := ih
    exact ⟨_, .literal plain alone rfl h', by rw [List.map_cons, List.map_cons, same]; rfl⟩

theorem Entries.apart {w : List Char} {items items' : List Item} (h : Entries L w items)
    (same : items.map Item.bare = items'.map Item.bare) : Entries .any w items' := by
  induction h generalizing items' with
  | nil =>
    rw [List.map_eq_nil_iff.mp same.symm]
    exact .nil
  | escape means _ _ ih =>
    obtain ⟨⟨test, label⟩, rest, rfl, one, others⟩ := List.map_eq_cons_iff.mp same.symm
    cases one
    exact .escape means trivial (ih others.symm)
  | range oneKind ascending _ _ ih =>
    obtain ⟨⟨test, label⟩, rest, rfl, one, others⟩ := List.map_eq_cons_iff.mp same.symm
    cases one
    exact .range oneKind ascending trivial (ih others.symm)
  | literal plain alone _ _ ih =>
    obtain ⟨⟨test, label⟩, rest, rfl, one, others⟩ := List.map_eq_cons_iff.mp same.symm
    cases one
    exact .literal plain alone trivial (ih others.symm)

theorem Single.relabel {w : List Char} {g : Guard} (h : Single L w g) :
    ∃ g', Single .own w g' ∧ g'.bare = g.bare := by
  cases h with
  | item symbol => exact ⟨_, .item symbol.relabel, rfl⟩
  | charset bracket =>
    obtain ⟨first, unclosed, inside, nonempty, _⟩ := bracket
    obtain ⟨items', inside', same⟩ := inside.relabel
    have nonempty' : items' ≠ [] := by
      rintro rfl
      exact nonempty (List.map_eq_nil_iff.mp same.symm)
    exact ⟨_, .charset (.intro first unclosed inside' nonempty' rfl),
      by simp only [Guard.bare, Charset.bare, same]⟩

theorem Single.apart {w : List Char} {g g' : Guard} (h : Single L w g) (same : g.bare = g'.bare) :
    Single .any w g' := by
  cases h with
  | item symbol =>
    cases g' with
    | item i' => exact .item (symbol.apart (Guard.item.inj same))
    | charset => cases same
  | charset bracket =>
    cases g' with
    | item => cases same
    | charset s' =>
      obtain ⟨first, unclosed, inside, nonempty, _⟩ := bracket
      obtain ⟨negated', items', label'⟩ := s'
      obtain ⟨rfl, same, _⟩ := Charset.mk.inj (Guard.charset.inj same)
      have nonempty' : items' ≠ [] := by
        rintro rfl
        exact nonempty (List.map_eq_nil_iff.mp same)
      exact .charset (.intro first unclosed (inside.apart same) nonempty' trivial)

mutual

/-- The label of the term itself is still to be chosen. -/
theorem Piece.relabel {w : List Char} {t : Term} (h : Piece L w t) (label : String) :
    ∃ t', Piece .own w t' ∧ t'.label = label ∧ t'.bare = t.bare := by
  match h with
  | .guard single often =>
    obtain ⟨g', single', same⟩ := single.relabel
    exact ⟨.guard g' _ label, .guard single' often, rfl, by rw [Term.bare, Term.bare, same]⟩
  | .group inside _ often =>
    obtain ⟨bs', inside', same⟩ := inside.relabel
    exact ⟨.group bs' _ _ label, .group inside' rfl often, rfl, by rw [Term.bare, Term.bare, same]⟩

theorem Row.relabel {w : List Char} {ts : List Term} (h : Row L w ts) :
    ∃ ts', Row .own w ts' ∧ bareBranch ts' = bareBranch ts := by
  match h with
  | .last piece _ =>
    obtain ⟨t', piece', named, same⟩ := piece.relabel _
    exact ⟨[t'], .last piece' named, by simp only [bareBranch, same]⟩
  | .cons piece rest _ =>
    obtain ⟨t', piece', named, same⟩ := piece.relabel _
    obtain ⟨ts', rest', others⟩ := rest.relabel
    exact ⟨t' :: ts', .cons piece' rest' named, by simp only [bareBranch, same, others]⟩

/-- **Labels can be chosen.** What derives a tree derives one that is labelled with the characters
its nodes stand for. -/
theorem Choice.relabel {w : List Char} {bs : List (List Term)} (h : Choice L w bs) :
    ∃ bs', Choice .own w bs' ∧ bareBranches bs' = bareBranches bs := by
  match h with
  | .last row =>
    obtain ⟨b', row', same⟩ := row.relabel
    exact ⟨[b'], .last row', by simp only [bareBranches, same]⟩
  | .cons row others =>
    obtain ⟨b', row', same⟩ := row.relabel
    obtain ⟨bs', others', rest⟩ := others.relabel
    exact ⟨b' :: bs', .cons row' others', by simp only [bareBranches, same, rest]⟩

end

mutual

theorem Piece.apart {w : List Char} {t t' : Term} (h : Piece L w t) (same : t.bare = t'.bare) :
    Piece .any w t' := by
  match h, t' with
  | .guard single often, .guard g' rep' _ =>
    simp only [Term.bare, Term.guard.injEq, and_true] at same
    obtain ⟨same, rfl⟩ := same
    exact .guard (single.apart same) often
  | .group inside _ often, .group bs' _ rep' _ =>
    simp only [Term.bare, Term.group.injEq, and_true, true_and] at same
    obtain ⟨same, rfl⟩ := same
    exact .group (inside.apart same) trivial often

theorem Row.apart {w : List Char} {ts ts' : List Term} (h : Row L w ts)
    (same : bareBranch ts = bareBranch ts') : Row .any w ts' := by
  match h, ts' with
  | .last piece _, t' :: rest' =>
    obtain ⟨one, none⟩ := List.cons.inj same
    cases rest' with
    | nil => exact .last (piece.apart one) trivial
    | cons => cases none
  | .cons piece rest _, t' :: ts' =>
    obtain ⟨one, others⟩ := List.cons.inj same
    exact .cons (piece.apart one) (rest.apart others) trivial

/-- **Labels make no difference.** What derives a tree derives every tree that differs from it in
labels only, where any label will do. -/
theorem Choice.apart {w : List Char} {bs bs' : List (List Term)} (h : Choice L w bs)
    (same : bareBranches bs = bareBranches bs') : Choice .any w bs' := by
  match h, bs' with
  | .last row, b' :: rest' =>
    obtain ⟨one, none⟩ := List.cons.inj same
    cases rest' with
    | nil => exact .last (row.apart one)
    | cons => cases none
  | .cons row others, b' :: bs' =>
    obtain ⟨one, rest⟩ := List.cons.inj same
    exact .cons (row.apart one) (others.apart rest)

end

end Grammar

end WholeMatch
