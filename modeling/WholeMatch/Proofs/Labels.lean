import WholeMatch.Proofs.Symbols

namespace WholeMatch

open Grammar

/-- The items that stand in a class, behind the caret that may open it. -/
inductive ClassItems : List Char → List Item → Prop
  | nil : ClassItems [] []
  | escape {c : Char} {cs : List Char} {test : Test} {items : List Item}
      (means : escaped true c = some test) (rest : ClassItems cs items) :
      ClassItems ('\\' :: c :: cs) (⟨test, String.ofList ['\\', c]⟩ :: items)
  | range {lo hi : Char} {cs : List Char} {items : List Item} (plain : lo ≠ '\\')
      (letter : lo.isAlphanum = true) (rest : ClassItems cs items) :
      ClassItems (lo :: '-' :: hi :: cs) (⟨.range lo hi, String.ofList [lo, '-', hi]⟩ :: items)
  | single {c : Char} {cs : List Char} {items : List Item} (plain : c ≠ '\\')
      (alone : c.isAlphanum = true → ∀ hi rest, cs ≠ '-' :: hi :: rest)
      (rest : ClassItems cs items) :
      ClassItems (c :: cs) (⟨.literal c, String.ofList [c]⟩ :: items)

/-- Whether a class is negated, and what stands in it. -/
def classBody : List Char → Bool × List Char
  | '^' :: cs => (true, cs)
  | cs => (false, cs)

/-- The guard that characters denote, labelled with them. -/
inductive Guard.Written : List Char → Guard → Prop
  | single {c : Char} (plain : c ≠ '\\') :
      Written [c] (.item ⟨unescaped c, String.ofList [c]⟩)
  | escape {c : Char} {test : Test} (means : escaped false c = some test) :
      Written ['\\', c] (.item ⟨test, String.ofList ['\\', c]⟩)
  | charset {cs : List Char} {items : List Item} (inside : ClassItems (classBody cs).2 items) :
      Written ('[' :: (cs ++ [']']))
        (.charset ⟨(classBody cs).1, items, String.ofList ('[' :: (cs ++ [']']))⟩)

theorem ClassItems.unique {cs : List Char} {items items' : List Item} (h : ClassItems cs items)
    (h' : ClassItems cs items') : items = items' := by
  induction h generalizing items' with
  | nil => cases h'; rfl
  | escape means _ ih =>
    cases h' with
    | escape means' rest' =>
      rw [means] at means'
      cases means'
      rw [ih rest']
    | range plain => exact absurd rfl plain
    | single plain => exact absurd rfl plain
  | range plain letter _ ih =>
    cases h' with
    | escape => exact absurd rfl plain
    | range _ _ rest' => rw [ih rest']
    | single _ alone => exact absurd rfl (alone letter _ _)
  | single plain alone _ ih =>
    cases h' with
    | escape => exact absurd rfl plain
    | range _ letter _ => exact absurd rfl (alone letter _ _)
    | single _ _ rest' => rw [ih rest']

/-- No escape makes an assertion of a class. -/
theorem escaped_in_class {c : Char} {test : Test} (h : escaped true c = some test)
    (label : String) : (⟨test, label⟩ : Item).zeroWidth = false := by
  unfold escaped at h
  split at h
  case h_10 | h_11 => simp at h
  case h_12 =>
    split at h
    · cases h
      rfl
    · cases h
  all_goals
    cases h
    rfl

theorem ClassItems.plain {cs : List Char} {items : List Item} (h : ClassItems cs items) :
    items.all (!·.zeroWidth) = true := by
  induction h with
  | nil => rfl
  | escape means _ ih => rw [List.all_cons, escaped_in_class means, ih]; rfl
  | range _ _ _ ih => rw [List.all_cons, ih]; rfl
  | single _ _ _ ih => rw [List.all_cons, ih]; rfl

namespace Guard.Written

variable {w : List Char} {g g' : Guard}

theorem plain (h : Written w g) : g.plain = true := by
  cases h with
  | single => rfl
  | escape => rfl
  | charset inside => exact inside.plain

theorem label_eq (h : Written w g) : g.label = String.ofList w := by
  cases h <;> rfl

/-- **What is written denotes one guard.** -/
theorem unique (h : Written w g) (h' : Written w g') : g = g' := by
  generalize hw : w = w' at h'
  cases h with
  | single =>
    cases h' with
    | single => cases hw; rfl
    | escape => cases hw
    | charset => simp at hw
  | escape means =>
    cases h' with
    | single => cases hw
    | escape means' =>
      cases hw
      rw [means] at means'
      cases means'
      rfl
    | charset => cases hw
  | charset inside =>
    cases h' with
    | single => simp at hw
    | escape => cases hw
    | charset inside' =>
      obtain ⟨_, same⟩ := List.cons.inj hw
      obtain rfl := List.append_cancel_right same
      rw [inside.unique inside']

/-- Guards of one label are one guard. -/
theorem eq_of_label {w' : List Char} (h : Written w g) (h' : Written w' g')
    (same : g.label = g'.label) : g = g' := by
  rw [h.label_eq, h'.label_eq] at same
  obtain rfl := String.ofList_injective same
  exact h.unique h'

end Guard.Written

theorem Grammar.Entries.written {w : List Char} {items : List Item} (h : Entries .own w items) :
    ClassItems w items := by
  induction h with
  | nil => exact .nil
  | escape means named _ ih =>
    rw [named]
    exact .escape (escaped_iff.mpr means) ih
  | range oneKind ascending named _ ih =>
    have letter := alphanum_of_oneKind oneKind
    rw [named]
    exact .range (not_backslash_of_alphanum letter) letter ih
  | literal plain alone named _ ih =>
    rw [named]
    exact .single plain alone ih

theorem classBody_caret {negated : Bool} {w : List Char}
    (first : negated = false → w.head? ≠ some '^') :
    classBody (caret negated ++ w) = (negated, w) := by
  cases negated with
  | true => rfl
  | false =>
    unfold classBody
    split
    · next caret =>
      change w = _ at caret
      subst caret
      exact absurd rfl (first rfl)
    · rfl

theorem Grammar.Single.written {w : List Char} {g : Guard} (h : Single .own w g) :
    g.Written w := by
  cases h with
  | @item i symbol =>
    obtain ⟨test, label⟩ := i
    obtain ⟨named, shape⟩ := symbol_cases symbol
    obtain rfl : label = String.ofList w := named
    rcases shape with ⟨c, rfl, plain, rfl⟩ | ⟨c, rfl, means⟩
    · exact .single plain
    · exact .escape (escaped_iff.mpr means)
  | charset bracket =>
    cases bracket with
    | @intro negated w items label first _ inside _ named =>
      have body := classBody_caret first
      have items' : ClassItems (classBody (caret negated ++ w)).2 items := by
        rw [body]
        exact inside.written
      have written := Guard.Written.charset items'
      rw [body] at written
      rw [named]
      exact written

end WholeMatch
