import WholeMatch.Pattern.Tree

/-! The meaning of a pattern, said without a matcher: the pairs of places of a text that it leads
between. How many times in a row a term is taken is a parameter. `Repeat.Allows` takes the bounds as
they stand; `Repeat.Copies` has the lower one even where it is above the upper. They differ for
reversed bounds only. -/

namespace WholeMatch

/-- The character before a place of a text; none before the first. -/
def charBefore (text : Array Char) (p : Nat) : Option Char :=
  if p = 0 then none else text[p - 1]?

/-- Whether the guard accepts a character. Assertions accept none. -/
def Guard.accepts : Guard → Char → Bool
  | item i, c => i.test.accepts c
  | charset s, c => s.items.any (·.test.accepts c) != s.negated

/-- From `p` to `q` the text satisfies the guard, all of the text being in sight. -/
inductive Guard.Spans (text : Array Char) : Guard → Nat → Nat → Prop
  | reads {g : Guard} {p : Nat} {c : Char} (width : g.zeroWidth = false)
      (here : text[p]? = some c) (accepted : g.accepts c = true) : Guard.Spans text g p (p + 1)
  | holds {i : Item} {a : Assertion} {p : Nat} (asserts : i.test = .assertion a)
      (inside : p ≤ text.size) (held : a.between (charBefore text p) text[p]? = true) :
      Guard.Spans text (.item i) p p

/-- `r` taken `k` times in a row. -/
def Power (r : Nat → Nat → Prop) : Nat → Nat → Nat → Prop
  | 0, i, j => i = j
  | k + 1, i, j => ∃ p, r i p ∧ Power r k p j

namespace Power

variable {r s : Nat → Nat → Prop}

theorem one {i j : Nat} : Power r 1 i j ↔ r i j := by
  simp [Power]

theorem add {k l i j : Nat} : Power r (k + l) i j ↔ ∃ p, Power r k i p ∧ Power r l p j := by
  induction k generalizing i with
  | zero => simp [Power]
  | succ k ih =>
    rw [Nat.add_right_comm]
    simp only [Power, ih]
    constructor
    · rintro ⟨p, hp, q, hq, hj⟩; exact ⟨q, ⟨p, hp, hq⟩, hj⟩
    · rintro ⟨q, ⟨p, hp, hq⟩, hj⟩; exact ⟨p, hp, q, hq, hj⟩

theorem succ_last {k i j : Nat} : Power r (k + 1) i j ↔ ∃ p, Power r k i p ∧ r p j := by
  simp only [add, one]

/-- What never leads back does not when it is taken often. -/
theorem le (h : ∀ i j, r i j → i ≤ j) {k : Nat} : ∀ {i j : Nat}, Power r k i j → i ≤ j := by
  induction k with
  | zero => exact fun hp => Nat.le_of_eq hp
  | succ k ih =>
    rintro i j ⟨p, hp, hj⟩
    exact Nat.le_trans (h i p hp) (ih hj)

theorem congr (h : ∀ i j, r i j ↔ s i j) {k i j : Nat} : Power r k i j ↔ Power s k i j := by
  induction k generalizing i with
  | zero => rfl
  | succ k ih => simp only [Power, h, ih]

end Power

/-- `k` repetitions are within the bounds. -/
def Repeat.Allows (rep : Repeat) (k : Nat) : Prop := rep.min ≤ k ∧ ∀ m, rep.max = some m → k ≤ m

/-- `k` repetitions are within the bounds, or they are the least number that is asked for. Where
the bounds are reversed nothing else is left. -/
def Repeat.Copies (rep : Repeat) (k : Nat) : Prop :=
  rep.min ≤ k ∧ ∀ m, rep.max = some m → k ≤ m ∨ k = rep.min

/-- The bounds are not reversed. -/
def Repeat.Ordered (rep : Repeat) : Prop := ∀ m, rep.max = some m → rep.min ≤ m

theorem Repeat.copies_iff_allows {rep : Repeat} (h : rep.Ordered) (k : Nat) :
    rep.Copies k ↔ rep.Allows k := by
  unfold Copies Allows
  constructor
  · rintro ⟨least, most⟩
    refine ⟨least, fun m hm => ?_⟩
    have := most m hm
    have := h m hm
    omega
  · rintro ⟨least, most⟩
    exact ⟨least, fun m hm => .inl (most m hm)⟩

theorem Repeat.allowsMore_iff {rep : Repeat} {count : Nat} :
    rep.allowsMore count = true ↔ ∀ m, rep.max = some m → count < m := by
  unfold allowsMore
  cases rep.max <;> simp

mutual

/-- From `i` to `j` the text matches the term, repeated as often as `counts` has it. -/
def Term.Spans (counts : Repeat → Nat → Prop) (text : Array Char) : Term → Nat → Nat → Prop
  | .guard g rep _, i, j => ∃ k, counts rep k ∧ Power (g.Spans text) k i j
  | .group bs _ rep _, i, j =>
    ∃ k, counts rep k ∧ Power (fun p q => spansBranches counts text bs p q) k i j

/-- The terms, one behind the other. -/
def spansBranch (counts : Repeat → Nat → Prop) (text : Array Char) :
    List Term → Nat → Nat → Prop
  | [], i, j => i = j
  | t :: ts, i, j => ∃ p, t.Spans counts text i p ∧ spansBranch counts text ts p j

/-- One of the branches. -/
def spansBranches (counts : Repeat → Nat → Prop) (text : Array Char) :
    List (List Term) → Nat → Nat → Prop
  | [], _, _ => False
  | b :: bs, i, j => spansBranch counts text b i j ∨ spansBranches counts text bs i j

end

/-- The pattern spans from `i` to `j`. -/
def Pattern.Spans (counts : Repeat → Nat → Prop) (p : Pattern) (text : Array Char) (i j : Nat) :
    Prop :=
  spansBranches counts text p.branches i j

theorem plainBranches_iff {bs : List Branch} :
    plainBranches bs = true ↔ ∀ b ∈ bs, plainBranch b = true := by
  induction bs with
  | nil => simp [plainBranches]
  | cons b bs ih => simp [plainBranches, ih]

theorem spansBranches_iff {counts : Repeat → Nat → Prop} {text : Array Char} {bs : List Branch}
    {i j : Nat} : spansBranches counts text bs i j ↔ ∃ b ∈ bs, spansBranch counts text b i j := by
  induction bs with
  | nil => simp [spansBranches]
  | cons b bs ih => simp [spansBranches, ih]

section
variable {text : Array Char} {cur : Cursor}

theorem Cursor.Leads.peek_eq (h : (Cursor.ofText text).Leads cur) : cur.peek = text[cur.pos]? := by
  have hs : cur.stop = text.size := h.stop
  have ht : cur.text = text := h.text
  unfold peek
  split
  · rw [ht]
  · next beyond =>
    symm
    simp only [Array.getElem?_eq_none_iff]
    omega

theorem Cursor.Leads.lookBehind_eq (h : (Cursor.ofText text).Leads cur) :
    cur.lookBehind = charBefore text cur.pos := by
  have hs : cur.start = 0 := h.start
  have ht : cur.text = text := h.text
  unfold lookBehind charBefore
  by_cases first : cur.pos = 0
  · simp [first]
  · rw [if_pos (by omega), if_neg first, ht]

theorem Cursor.Leads.pos_le (h : (Cursor.ofText text).Leads cur) : cur.pos ≤ text.size := by
  have hs : cur.stop = text.size := h.stop
  have := cur.pos_le_stop
  omega

theorem Cursor.Leads.isEof_iff (h : (Cursor.ofText text).Leads cur) :
    cur.isEof = true ↔ cur.pos = text.size := by
  have hs : cur.stop = text.size := h.stop
  have := h.pos_le
  simp only [isEof, decide_eq_true_eq]
  omega

theorem Cursor.moveTo_ofText (text : Array Char) (p : Nat) (h : p ≤ text.size) :
    ∃ place, (Cursor.ofText text).moveTo p = .ok place ∧ (Cursor.ofText text).Leads place ∧
      place.pos = p :=
  ⟨⟨text, 0, text.size, p, Nat.zero_le p, h, Nat.le_refl _⟩, dif_pos ⟨Nat.zero_le p, h⟩,
    ⟨rfl, rfl, rfl, Nat.zero_le p⟩, rfl⟩

/-- A consuming guard reads a character and answers whether it accepts it. -/
theorem Guard.attempt_of_read {g : Guard} (hg : g.plain = true) (width : g.zeroWidth = false)
    {next : Cursor} {c : Char} (hr : cur.read = some (c, next)) :
    g.attempt cur = .ok (g.accepts c, next) := by
  cases g with
  | item i => rw [attempt, Item.attempt_eq_of_read width hr, accepts]
  | charset s =>
    have open' : cur.isEof = false := by
      simp only [Cursor.isEof, decide_eq_false_iff_not]
      unfold Cursor.read at hr
      split at hr
      · omega
      · cases hr
    simp [attempt, Charset.attempt, open', Charset.scan_eq_of_read hg hr, ok_bind, pure,
      Except.pure, accepts]

theorem Guard.attempt_of_eof {g : Guard} (width : g.zeroWidth = false) (he : cur.isEof = true) :
    g.attempt cur = .ok (false, cur) := by
  have unread : cur.read = none := by
    simp only [Cursor.isEof, decide_eq_true_eq] at he
    simp [Cursor.read, Nat.not_lt.mpr he]
  cases g with
  | item i =>
    simp only [zeroWidth, Item.zeroWidth] at width
    rw [attempt, Item.attempt, unread]
    split <;> simp_all
  | charset s => simp [attempt, Charset.attempt, he]

/-- **A plain guard answers what it spans.** It is satisfied when it spans something, and then
only what lies before the cursor it gives back. -/
theorem Guard.attempt_spans {g : Guard} (hg : g.plain = true)
    (h : (Cursor.ofText text).Leads cur) :
    ∃ hit next, g.attempt cur = .ok (hit, next) ∧ (Cursor.ofText text).Leads next ∧
      ∀ q, g.Spans text cur.pos q ↔ hit = true ∧ q = next.pos := by
  cases width : g.zeroWidth with
  | true =>
    cases g with
    | charset s => cases width
    | item i =>
      simp only [zeroWidth, Item.zeroWidth] at width
      split at width
      · next a asserts =>
        refine ⟨a.holds cur, cur, by simp [attempt, Item.attempt, asserts], h, fun q => ?_⟩
        rw [Assertion.holds, h.peek_eq, h.lookBehind_eq]
        constructor
        · rintro (⟨width', _, _⟩ | ⟨asserts', _, held⟩)
          · simp [zeroWidth, Item.zeroWidth, asserts] at width'
          · rw [asserts] at asserts'
            cases asserts'
            exact ⟨held, rfl⟩
        · rintro ⟨held, rfl⟩
          exact .holds asserts h.pos_le held
      · cases width
  | false =>
    cases he : cur.isEof with
    | true =>
      have last := h.isEof_iff.mp he
      refine ⟨false, cur, attempt_of_eof width he, h, fun q => ?_⟩
      constructor
      · rintro (⟨_, here, _⟩ | ⟨asserts, _, _⟩)
        · simp [last] at here
        · simp [zeroWidth, Item.zeroWidth, asserts] at width
      · rintro ⟨wrong, _⟩; cases wrong
    | false =>
      obtain ⟨c, next, hr⟩ := Cursor.read_of_not_isEof he
      obtain ⟨leads, moved, here⟩ := Cursor.read_eq_some hr
      rw [h.peek_eq] at here
      refine ⟨g.accepts c, next, attempt_of_read hg width hr, h.trans leads, fun q => ?_⟩
      rw [moved]
      constructor
      · rintro (⟨_, here', accepted⟩ | ⟨asserts, _, _⟩)
        · rw [here] at here'
          cases here'
          exact ⟨accepted, rfl⟩
        · simp [zeroWidth, Item.zeroWidth, asserts] at width
      · rintro ⟨accepted, rfl⟩
        exact .reads width here accepted

end

theorem Guard.Spans.inside {text : Array Char} {g : Guard} {p q : Nat} (h : g.Spans text p q) :
    q ≤ text.size := by
  cases h with
  | reads _ here _ =>
    obtain ⟨lt, _⟩ := Array.getElem?_eq_some_iff.mp here
    exact lt
  | holds _ inside _ => exact inside

theorem Guard.Spans.at_end {text : Array Char} {g : Guard} {q : Nat}
    (h : g.Spans text text.size q) : q = text.size := by
  cases h with
  | reads _ here _ => simp at here
  | holds _ _ _ => rfl

/-- Where a guard leads to depends on whether it reads. -/
theorem Guard.Spans.end_eq {text : Array Char} {g : Guard} {p q : Nat} (h : g.Spans text p q) :
    q = if g.zeroWidth then p else p + 1 := by
  cases h with
  | reads width _ _ => simp [width]
  | holds asserts _ _ => simp [zeroWidth, Item.zeroWidth, asserts]

/-- Whether a plain guard is satisfied is whether it spans anything from the cursor on. -/
theorem Guard.attempt_answers {text : Array Char} {cur : Cursor} {g : Guard}
    (hg : g.plain = true) (h : (Cursor.ofText text).Leads cur) :
    ∃ hit next, g.attempt cur = .ok (hit, next) ∧
      ∀ q, g.Spans text cur.pos q ↔
        hit = true ∧ q = if g.zeroWidth then cur.pos else cur.pos + 1 := by
  obtain ⟨hit, next, ha, _, spans⟩ := attempt_spans hg h
  refine ⟨hit, next, ha, fun q => (spans q).trans (and_congr_right fun satisfied => ?_)⟩
  rw [((spans next.pos).mpr ⟨satisfied, rfl⟩).end_eq]

theorem Guard.Spans.le {text : Array Char} {g : Guard} {p q : Nat} (h : g.Spans text p q) :
    p ≤ q := by
  rw [h.end_eq]
  split <;> omega

end WholeMatch
