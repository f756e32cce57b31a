import WholeMatch.Pattern.Reading
import WholeMatch.Proofs.Grammar
import WholeMatch.Proofs.Taking

namespace WholeMatch

open Grammar

/-- The reading gives the value, and stops at the cursor. -/
def Yields {n : Nat} {α : Type} (x : Except Failure (Reading n α)) (value : α) (rest : Cursor) :
    Prop :=
  ∃ r, x = .ok r ∧ r.value = value ∧ r.rest = rest

variable {cur next : Cursor} {c : Char} {w : List Char}

theorem escaped_iff {inClass : Bool} {test : Test} :
    escaped inClass c = some test ↔ Escape inClass c test := by
  constructor
  · intro h
    unfold escaped at h
    split at h
    case h_10 | h_11 =>
      cases inClass with
      | true => cases h
      | false => cases h; constructor; rfl
    case h_12 =>
      split at h
      · next special =>
        cases h
        exact .itself (List.contains_iff_mem.mp special)
      · cases h
    all_goals
      cases h
      constructor
  · intro h
    cases h with
    | boundary outside | nonBoundary outside => simp [escaped, outside]
    | itself special =>
      simp only [List.mem_cons, List.not_mem_nil, or_false] at special
      rcases special with rfl | rfl | rfl | rfl | rfl | rfl | rfl | rfl | rfl | rfl | rfl | rfl |
        rfl | rfl | rfl <;> rfl
    | _ => rfl

theorem readEscape_eq_ok {inClass : Bool} {opened : Nat} {test : Reading cur.remaining Test}
    (h : readEscape inClass opened cur = .ok test) :
    ∃ c, cur.read = some (c, test.rest) ∧ escaped inClass c = some test.value := by
  unfold readEscape at h
  split at h
  · cases h
  · next c rest hr =>
    split at h
    · next means =>
      cases h
      exact ⟨c, hr, means⟩
    · cases h

theorem readEscape_complete {inClass : Bool} {test : Test} (opened : Nat)
    (hr : cur.read = some (c, next)) (means : Escape inClass c test) :
    Yields (readEscape inClass opened cur) test next := by
  have known := escaped_iff.mpr means
  unfold readEscape
  split
  · next none => rw [hr] at none; cases none
  · next some =>
    rw [hr] at some
    cases some
    split
    · next known' =>
      rw [known] at known'
      cases known'
      exact ⟨_, rfl, rfl, rfl⟩
    · next unknown => rw [known] at unknown; cases unknown

/-- The characters that begin no item. -/
def reserved : List Char := ['(', ')', '[', '|', '*', '+', '?', '{']

theorem unescaped_symbol {label : String} (plain : c ≠ '\\') (free : c ∉ reserved)
    (named : label = String.ofList [c]) : Symbol .own [c] ⟨unescaped c, label⟩ := by
  unfold unescaped
  split
  · exact .any named
  · exact .lineBegin named
  · exact .lineEnd named
  · next dot begins ends =>
    refine .literal ?_ named
    simp only [reserved, List.mem_cons, List.not_mem_nil, or_false, not_or] at free ⊢
    exact ⟨dot, begins, ends, plain, free⟩

/-- An item is one character that stands for what it means, or two with a backslash. -/
theorem symbol_cases {L : Labelling} {i : Item} (h : Symbol L w i) : L i.label w ∧
    ((∃ c, w = [c] ∧ c ≠ '\\' ∧ unescaped c = i.test) ∨
      ∃ c, w = ['\\', c] ∧ Escape false c i.test) := by
  cases h with
  | any named | lineBegin named | lineEnd named => exact ⟨named, .inl ⟨_, rfl, by decide, rfl⟩⟩
  | escape means named => exact ⟨named, .inr ⟨_, rfl, means⟩⟩
  | literal ordinary named =>
    simp only [List.mem_cons, List.not_mem_nil, or_false, not_or] at ordinary
    obtain ⟨dot, begins, ends, plain, _⟩ := ordinary
    refine ⟨named, .inl ⟨_, rfl, plain, ?_⟩⟩
    unfold unescaped
    split <;> trivial

theorem readItem_sound (free : ∀ c, cur.peek = some c → c ∉ reserved)
    {item : Reading cur.remaining Item} (h : readItem cur = .ok item) :
    ∃ w, cur.Takes w item.rest ∧ Symbol .own w item.value := by
  unfold readItem at h
  split at h
  · cases h
  · next c next hr =>
    simp only at h
    split at h
    · next backslash =>
      obtain ⟨test, ht, h⟩ := bind_eq_ok.mp h
      cases h
      obtain ⟨c', hr', means⟩ := readEscape_eq_ok ht
      have takes : cur.Takes ['\\', c'] test.rest := ⟨next, backslash ▸ hr, test.rest, hr', rfl⟩
      exact ⟨_, takes, .escape (escaped_iff.mp means) takes.slice⟩
    · next plain =>
      cases h
      have takes := Cursor.takes_one.mpr hr
      exact ⟨_, takes, unescaped_symbol plain (free c (Cursor.peek_of_read hr)) takes.slice⟩

theorem readItem_complete {i : Item} (takes : cur.Takes w next) (h : Symbol .own w i) :
    Yields (readItem cur) i next := by
  obtain ⟨test, label⟩ := i
  obtain ⟨named, shape⟩ := symbol_cases h
  obtain rfl : label = cur.slice cur.pos next.pos := named.trans takes.slice.symm
  unfold readItem
  rcases shape with ⟨c, rfl, plain, rfl⟩ | ⟨c, rfl, means⟩
  · split
    · next none => rw [Cursor.takes_one.mp takes] at none; cases none
    · next some =>
      rw [Cursor.takes_one.mp takes] at some
      cases some
      simp only [if_neg plain]
      exact ⟨_, rfl, rfl, rfl⟩
  · obtain ⟨mid, hr, takes⟩ := takes
    obtain ⟨r, ht, rfl, rfl⟩ := readEscape_complete cur.pos (Cursor.takes_one.mp takes) means
    split
    · next none => rw [hr] at none; cases none
    · next some =>
      rw [hr] at some
      cases some
      simp only [if_pos, ht]
      exact ⟨_, rfl, rfl, rfl⟩

theorem properRange_iff {lo hi : Char} : properRange lo hi = true ↔
    (lo.isAlpha = true ∧ hi.isAlpha = true ∨ lo.isDigit = true ∧ hi.isDigit = true) ∧ lo ≤ hi := by
  simp [properRange]

theorem alphanum_of_oneKind {lo hi : Char}
    (h : lo.isAlpha = true ∧ hi.isAlpha = true ∨ lo.isDigit = true ∧ hi.isDigit = true) :
    lo.isAlphanum = true := by
  simp only [Char.isAlphanum, Bool.or_eq_true]
  exact h.imp And.left And.left

theorem not_backslash_of_alphanum (h : c.isAlphanum = true) : c ≠ '\\' := by
  rintro rfl
  cases h

theorem rangeEnd_eq_some {lo hi : Char} {rest : Cursor} (h : rangeEnd lo cur = some (hi, rest)) :
    lo.isAlphanum = true ∧ ∃ dash, cur.read = some ('-', dash) ∧ dash.read = some (hi, rest) := by
  unfold rangeEnd at h
  split at h
  · next letter =>
    split at h
    · next dash hd => exact ⟨letter, dash, hd, h⟩
    · cases h
  · cases h

theorem not_range_of_rangeEnd {lo : Char} (h : rangeEnd lo cur = none)
    (letter : lo.isAlphanum = true) (hi : Char) (rest : List Char) :
    cur.ahead ≠ '-' :: hi :: rest := by
  intro range
  unfold rangeEnd at h
  rw [if_pos letter] at h
  cases hd : cur.read with
  | none =>
    rw [Cursor.ahead_of_eof hd] at range
    cases range
  | some read =>
    obtain ⟨c, dash⟩ := read
    rw [Cursor.ahead_of_read hd] at range
    obtain ⟨rfl, range⟩ := List.cons.inj range
    simp only [hd] at h
    rw [Cursor.ahead_of_eof h] at range
    cases range

theorem rangeEnd_of_read {lo hi : Char} {dash : Cursor} (letter : lo.isAlphanum = true)
    (hd : cur.read = some ('-', dash)) (hh : dash.read = some (hi, next)) :
    rangeEnd lo cur = some (hi, next) := by
  unfold rangeEnd
  rw [if_pos letter, hd]
  exact hh

theorem rangeEnd_eq_none {lo : Char}
    (alone : lo.isAlphanum = true → ∀ hi v, cur.ahead ≠ '-' :: hi :: v) :
    rangeEnd lo cur = none := by
  cases h : rangeEnd lo cur with
  | none => rfl
  | some found =>
    obtain ⟨hi, rest⟩ := found
    obtain ⟨letter, dash, hd, hh⟩ := rangeEnd_eq_some h
    exact absurd (by rw [Cursor.ahead_of_read hd, Cursor.ahead_of_read hh]) (alone letter hi _)

theorem readClassItem_sound (hr : cur.read = some (c, next))
    {item : Reading cur.remaining Item} (h : readClassItem hr = .ok item) :
    ∃ u, cur.Takes u item.rest ∧ ∀ items, Entries .own item.rest.ahead items →
      Entries .own (u ++ item.rest.ahead) (item.value :: items) := by
  unfold readClassItem at h
  simp only at h
  split at h
  · next backslash =>
    obtain ⟨test, ht, h⟩ := bind_eq_ok.mp h
    cases h
    obtain ⟨c', hr', means⟩ := readEscape_eq_ok ht
    have takes : cur.Takes ['\\', c'] test.rest := ⟨next, backslash ▸ hr, test.rest, hr', rfl⟩
    exact ⟨_, takes, fun items rest => .escape (escaped_iff.mp means) takes.slice rest⟩
  · next plain =>
    split at h
    · next hi after hrange =>
      split at h
      · next proper =>
        cases h
        obtain ⟨letter, dash, hd, hh⟩ := rangeEnd_eq_some hrange
        obtain ⟨oneKind, ascending⟩ := properRange_iff.mp proper
        have takes : cur.Takes [c, '-', hi] after := ⟨next, hr, dash, hd, after, hh, rfl⟩
        exact ⟨_, takes, fun items rest => .range oneKind ascending takes.slice rest⟩
      · cases h
    · next hrange =>
      cases h
      have takes := Cursor.takes_one.mpr hr
      exact ⟨_, takes, fun items rest =>
        .literal plain (not_range_of_rangeEnd hrange) takes.slice rest⟩

theorem readClassItem_escape {c' : Char} {test : Test} {mid : Cursor}
    (hr : cur.read = some ('\\', mid)) (hr' : mid.read = some (c', next))
    (means : Escape true c' test) :
    Yields (readClassItem hr) ⟨test, cur.slice cur.pos next.pos⟩ next := by
  obtain ⟨r, ht, rfl, rfl⟩ := readEscape_complete cur.pos hr' means
  unfold readClassItem
  simp only [if_pos, ht]
  exact ⟨_, rfl, rfl, rfl⟩

theorem readClassItem_range {hi : Char} {mid dash : Cursor} (hr : cur.read = some (c, mid))
    (hd : mid.read = some ('-', dash)) (hh : dash.read = some (hi, next))
    (proper : properRange c hi = true) :
    Yields (readClassItem hr) ⟨.range c hi, cur.slice cur.pos next.pos⟩ next := by
  have letter := alphanum_of_oneKind (properRange_iff.mp proper).1
  have plain := not_backslash_of_alphanum letter
  unfold readClassItem
  simp only [if_neg plain]
  split
  · next hrange =>
    rw [rangeEnd_of_read letter hd hh] at hrange
    cases hrange
    rw [if_pos proper]
    exact ⟨_, rfl, rfl, rfl⟩
  · next hrange => rw [rangeEnd_of_read letter hd hh] at hrange; cases hrange

theorem readClassItem_literal (hr : cur.read = some (c, next)) (plain : c ≠ '\\')
    (alone : c.isAlphanum = true → ∀ hi v, next.ahead ≠ '-' :: hi :: v) :
    Yields (readClassItem hr) ⟨.literal c, cur.slice cur.pos next.pos⟩ next := by
  unfold readClassItem
  simp only [if_neg plain]
  split
  · next hrange => rw [rangeEnd_eq_none alone] at hrange; cases hrange
  · exact ⟨_, rfl, rfl, rfl⟩

/-- One item after the other. -/
theorem readClassItems_cons {item : Item} {items : List Item} {mid : Cursor}
    (hr : cur.read = some (c, mid)) (first : Yields (readClassItem hr) item next)
    (rest : readClassItems next = .ok items) : readClassItems cur = .ok (item :: items) := by
  obtain ⟨r, hc, rfl, rfl⟩ := first
  rw [readClassItems]
  split
  · next none => rw [hr] at none; cases none
  · next some =>
    rw [hr] at some
    cases some
    rw [hc, ok_bind, rest]
    rfl

/-- **The items of a class** are those its characters derive. -/
theorem readClassItems_iff {items : List Item} :
    readClassItems cur = .ok items ↔ Entries .own cur.ahead items := by
  constructor
  · intro h
    fun_induction readClassItems cur generalizing items with
    | case1 cur hr =>
      cases h
      rw [Cursor.ahead_of_eof hr]
      exact .nil
    | case2 cur read hr ih =>
      obtain ⟨item, hi, h⟩ := bind_eq_ok.mp h
      obtain ⟨rest, hrest, h⟩ := bind_eq_ok.mp h
      cases h
      obtain ⟨u, takes, entry⟩ := readClassItem_sound hr hi
      rw [takes.ahead_eq]
      exact entry rest (ih item hrest)
  · intro h
    generalize hw : cur.ahead = w at h
    induction h generalizing cur with
    | nil =>
      have none := Cursor.eof_of_ahead hw
      rw [readClassItems]
      split
      · rfl
      · next some => rw [none] at some; cases some
    | escape means named _ ih =>
      obtain ⟨mid, hr, hw⟩ := Cursor.read_of_ahead hw
      obtain ⟨next, hr', hw⟩ := Cursor.read_of_ahead hw
      have takes : cur.Takes ['\\', _] next := ⟨mid, hr, next, hr', rfl⟩
      rw [named, ← takes.slice]
      exact readClassItems_cons hr (readClassItem_escape hr hr' means) (ih hw)
    | @range lo hi _ _ _ oneKind ascending named _ ih =>
      obtain ⟨mid, hr, hw⟩ := Cursor.read_of_ahead hw
      obtain ⟨dash, hd, hw⟩ := Cursor.read_of_ahead hw
      obtain ⟨next, hh, hw⟩ := Cursor.read_of_ahead hw
      have takes : cur.Takes [lo, '-', hi] next := ⟨mid, hr, dash, hd, next, hh, rfl⟩
      rw [named, ← takes.slice]
      exact readClassItems_cons hr
        (readClassItem_range hr hd hh (properRange_iff.mpr ⟨oneKind, ascending⟩)) (ih hw)
    | literal plain alone named _ ih =>
      obtain ⟨next, hr, hw⟩ := Cursor.read_of_ahead hw
      rw [named, ← (Cursor.takes_one.mpr hr).slice]
      subst hw
      exact readClassItems_cons hr (readClassItem_literal hr plain alone) (ih rfl)

/-- A caret that comes first in a class is taken off. -/
theorem caret_takes {negated : Bool} {inside : Cursor}
    (h : (match cur.read with
      | some ('^', next) => (true, next)
      | _ => (false, cur)) = (negated, inside)) :
    cur.Takes (caret negated) inside ∧ (negated = false → inside.ahead.head? ≠ some '^') := by
  split at h
  · next next hr =>
    cases h
    exact ⟨Cursor.takes_one.mpr hr, nofun⟩
  · next other =>
    cases h
    refine ⟨rfl, fun _ first => ?_⟩
    obtain ⟨w, ahead⟩ := List.head?_eq_some_iff.mp first
    obtain ⟨next, hr, _⟩ := Cursor.read_of_ahead ahead
    exact other next hr

theorem caret_of_ahead {negated : Bool} (ahead : cur.ahead = caret negated ++ w)
    (first : negated = false → w.head? ≠ some '^') :
    ∃ inside, (match cur.read with
      | some ('^', next) => (true, next)
      | _ => (false, cur)) = (negated, inside) ∧ inside.ahead = w := by
  cases negated with
  | true =>
    obtain ⟨inside, hr, rest⟩ := Cursor.read_of_ahead ahead
    exact ⟨inside, by rw [hr]; rfl, rest⟩
  | false =>
    refine ⟨cur, ?_, ahead⟩
    split
    · next next hr =>
      have ahead : '^' :: next.ahead = w := (Cursor.ahead_of_read hr).symm.trans ahead
      exact absurd (by rw [← ahead]; rfl) (first rfl)
    · rfl

/-- **A class** is what stands between its brackets. -/
theorem readCharset_iff {opened : Nat} {label : String} {s : Charset} :
    readCharset opened label cur = .ok s ↔
      ∃ negated w items, cur.ahead = caret negated ++ w ∧ (negated = false → w.head? ≠ some '^') ∧
        Entries .own w items ∧ items ≠ [] ∧ s = ⟨negated, items, label⟩ := by
  constructor
  · intro h
    unfold readCharset at h
    split at h
    next negated inside opens =>
    obtain ⟨items, hi, h⟩ := bind_eq_ok.mp h
    split at h
    · cases h
    · next nonempty =>
      cases h
      obtain ⟨takes, first⟩ := caret_takes opens
      exact ⟨negated, inside.ahead, items, takes.ahead_eq, first, readClassItems_iff.mp hi,
        by simpa using nonempty, rfl⟩
  · rintro ⟨negated, w, items, ahead, first, inside, nonempty, rfl⟩
    obtain ⟨start, opens, rfl⟩ := caret_of_ahead ahead first
    unfold readCharset
    split
    next negated' start' opens' =>
    obtain ⟨rfl, rfl⟩ := Prod.mk.inj (opens'.symm.trans opens)
    rw [readClassItems_iff.mpr inside, ok_bind, if_neg (by simpa using nonempty)]
    rfl

end WholeMatch
