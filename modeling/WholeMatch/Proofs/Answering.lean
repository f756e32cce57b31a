import Mathlib.Logic.Basic
import WholeMatch.Proofs.Spans
import WholeMatch.Proofs.Taking

namespace WholeMatch

namespace Cursor

variable {cur : Cursor}

/-- The characters of the window before the position. -/
def behind (cur : Cursor) : List Char := (cur.text.extract cur.start cur.pos).toList

/-- The characters on the two sides of the position; none where the window ends. -/
def sides (cur : Cursor) : Option Char × Option Char := (cur.behind.getLast?, cur.ahead.head?)

theorem peek_eq_head? (cur : Cursor) : cur.peek = cur.ahead.head? := by
  cases hr : cur.read with
  | none => rw [peek_of_eof hr, ahead_of_eof hr, List.head?_nil]
  | some read => rw [peek_of_read hr, ahead_of_read hr, List.head?_cons]

theorem lookBehind_eq_getLast? (cur : Cursor) : cur.lookBehind = cur.behind.getLast? := by
  have low := cur.start_le_pos
  have high := Nat.le_trans cur.pos_le_stop cur.stop_le_size
  have length : cur.behind.length = cur.pos - cur.start := by
    rw [behind, Array.length_toList, Array.size_extract, Nat.min_eq_left high]
  rw [List.getLast?_eq_getElem?, length, behind, Array.getElem?_toList, Array.getElem?_extract,
    Nat.min_eq_left high, lookBehind]
  split
  · rw [if_pos (by omega), show cur.start + (cur.pos - cur.start - 1) = cur.pos - 1 by omega]
  · rw [if_neg (by omega)]

theorem ahead_of_isEof (h : cur.isEof = true) : cur.ahead = [] := by
  simp only [isEof, decide_eq_true_eq] at h
  exact upTo_of_le h

end Cursor

namespace Guard

variable {g : Guard} {cur : Cursor} {c : Char}

/-- The guard accepts a character. A charset does if one of its items does, whichever it is and
however many do, and a negated one if none does. -/
def Admits : Guard → Char → Prop
  | item i, c => i.test.accepts c = true
  | charset s, c => Xor (∃ i ∈ s.items, i.test.accepts c = true) (s.negated = true)

theorem accepts_iff_admits : g.accepts c = true ↔ g.Admits c := by
  cases g with
  | item i => rfl
  | charset s =>
    rw [accepts, Admits, ← List.any_eq_true, bne_iff_ne]
    cases s.items.any (·.test.accepts c) <;> cases s.negated <;> simp [Xor]

/-- A guard that reads nothing is an assertion. -/
theorem zeroWidth_iff : g.zeroWidth = true ↔ ∃ i a, g = item i ∧ i.test = .assertion a := by
  constructor
  · intro width
    cases g with
    | charset s => cases width
    | item i =>
      simp only [zeroWidth, Item.zeroWidth] at width
      split at width
      · next a asserts => exact ⟨i, a, rfl, asserts⟩
      · cases width
  · rintro ⟨i, a, rfl, asserts⟩
    simp [zeroWidth, Item.zeroWidth, asserts]

/-- What a guard answers at a cursor, and the cursor it leaves. -/
structure Answers (g : Guard) (cur : Cursor) (hit : Bool) (next : Cursor) : Prop where
  window : cur.Leads next
  /-- At the end of the window a guard that reads answers no, and stays. -/
  ended : g.zeroWidth = false → cur.ahead = [] → hit = false ∧ next = cur
  /-- Elsewhere it reads one character, accepted or not. -/
  reads : g.zeroWidth = false → ∀ c w, cur.ahead = c :: w →
    (hit = true ↔ g.Admits c) ∧ next.pos = cur.pos + 1
  /-- An assertion stays, and answers by the two sides. -/
  asserts : ∀ i a, g = item i → i.test = .assertion a →
    hit = a.between cur.sides.1 cur.sides.2 ∧ next = cur

theorem attempt_of_assertion {i : Item} {a : Assertion} (asserts : i.test = .assertion a)
    (cur : Cursor) : (item i).attempt cur = .ok (a.between cur.sides.1 cur.sides.2, cur) := by
  rw [attempt, Item.attempt, asserts]
  simp only [Assertion.holds, Cursor.sides, Cursor.peek_eq_head?, Cursor.lookBehind_eq_getLast?]

theorem answers_of_assertion {i : Item} {a : Assertion} (asserts : i.test = .assertion a)
    (cur : Cursor) : (item i).Answers cur (a.between cur.sides.1 cur.sides.2) cur := by
  have width : (item i).zeroWidth = true := zeroWidth_iff.mpr ⟨i, a, rfl, asserts⟩
  constructor
  case window => exact .refl cur
  case ended | reads =>
    intro reads
    cases width.symm.trans reads
  case asserts =>
    rintro i' a' same asserts'
    cases same
    cases asserts.symm.trans asserts'
    exact ⟨rfl, rfl⟩

theorem not_asserts (width : g.zeroWidth = false) {i : Item} {a : Assertion} (same : g = item i) :
    i.test ≠ .assertion a := by
  intro asserts
  cases width.symm.trans (zeroWidth_iff.mpr ⟨i, a, same, asserts⟩)

theorem answers_of_eof (width : g.zeroWidth = false) (he : cur.isEof = true) :
    g.Answers cur false cur := by
  constructor
  case window => exact .refl cur
  case ended => exact fun _ _ => ⟨rfl, rfl⟩
  case reads =>
    intro _ c w here
    cases (Cursor.ahead_of_isEof he).symm.trans here
  case asserts => exact fun i a same asserts => absurd asserts (not_asserts width same)

theorem answers_of_read (width : g.zeroWidth = false) {next : Cursor}
    (hr : cur.read = some (c, next)) : g.Answers cur (g.accepts c) next := by
  obtain ⟨leads, moved, _⟩ := Cursor.read_eq_some hr
  have here := Cursor.ahead_of_read hr
  constructor
  case window => exact leads
  case ended =>
    intro _ nothing
    cases here.symm.trans nothing
  case reads =>
    intro _ c' w here'
    cases here.symm.trans here'
    exact ⟨accepts_iff_admits, moved⟩
  case asserts => exact fun i a same asserts => absurd asserts (not_asserts width same)

/-- A plain guard answers everywhere. -/
theorem attempt_answered (hg : g.plain = true) (cur : Cursor) :
    ∃ hit next, g.attempt cur = .ok (hit, next) ∧ g.Answers cur hit next := by
  cases width : g.zeroWidth with
  | true =>
    obtain ⟨i, a, rfl, asserts⟩ := zeroWidth_iff.mp width
    exact ⟨_, cur, attempt_of_assertion asserts cur, answers_of_assertion asserts cur⟩
  | false =>
    cases he : cur.isEof with
    | true => exact ⟨false, cur, attempt_of_eof width he, answers_of_eof width he⟩
    | false =>
      obtain ⟨c, next, hr⟩ := Cursor.read_of_not_isEof he
      exact ⟨g.accepts c, next, attempt_of_read hg width hr, answers_of_read width hr⟩

/-- The answer hangs on the two sides. -/
theorem Answers.hit_eq {cur' next next' : Cursor} {hit hit' : Bool} (h : g.Answers cur hit next)
    (h' : g.Answers cur' hit' next') (alike : cur.sides = cur'.sides) : hit = hit' := by
  cases width : g.zeroWidth with
  | true =>
    obtain ⟨i, a, rfl, asserts⟩ := zeroWidth_iff.mp width
    rw [(h.asserts i a rfl asserts).1, (h'.asserts i a rfl asserts).1, alike]
  | false =>
    have first : cur'.ahead.head? = cur.ahead.head? := congrArg Prod.snd alike.symm
    cases here : cur.ahead with
    | nil =>
      rw [here, List.head?_nil, List.head?_eq_none_iff] at first
      rw [(h.ended width here).1, (h'.ended width first).1]
    | cons c w =>
      rw [here, List.head?_cons] at first
      obtain ⟨w', here'⟩ := List.head?_eq_some_iff.mp first
      apply Bool.eq_iff_iff.mpr
      exact (h.reads width c w here).1.trans (h'.reads width c w' here').1.symm

/-- **A guard answers by what is on the two sides.** If no charset holds an assertion, a guard
answers at every cursor. It reads one character, whether it accepts it or not, and none if it is an
assertion or the window is at its end. A charset answers whether one of its items accepts the
character, or none when it is negated. Cursors in other windows, with the same characters on the two
sides, get the same answer. -/
theorem guards_answer_by_sides (hg : g.plain = true) :
    (∀ cur, ∃ hit next, g.attempt cur = .ok (hit, next) ∧ g.Answers cur hit next) ∧
    ∀ cur cur', cur.sides = cur'.sides →
      (g.attempt cur).map Prod.fst = (g.attempt cur').map Prod.fst := by
  refine ⟨attempt_answered hg, fun cur cur' alike => ?_⟩
  obtain ⟨hit, next, ha, answers⟩ := attempt_answered hg cur
  obtain ⟨hit', next', ha', answers'⟩ := attempt_answered hg cur'
  rw [ha, ha', answers.hit_eq answers' alike]
  rfl

/-- `[^b-da-cb]`, with one character that three of its items accept. -/
def lapped : Guard :=
  .charset ⟨true, [⟨.range 'b' 'd', "b-d"⟩, ⟨.range 'a' 'c', "a-c"⟩, ⟨.literal 'b', "b"⟩],
    "[^b-da-cb]"⟩

/-- A cursor at the beginning of a window of one character. -/
def narrow : Cursor where
  text := #['e', 'b', 'e']
  start := 1
  stop := 2
  pos := 1
  start_le_pos := by decide
  pos_le_stop := by decide
  stop_le_size := by decide

theorem lapped_answers_by_sides : lapped.plain = true ∧
    (∃ hit next, lapped.attempt narrow = .ok (hit, next) ∧ lapped.Answers narrow hit next) ∧
    narrow.sides = (Cursor.ofText #['b', 'a']).sides ∧
    (lapped.attempt narrow).map Prod.fst = (lapped.attempt (.ofText #['b', 'a'])).map Prod.fst :=
  have plain : lapped.plain = true := by decide
  have alike : narrow.sides = (Cursor.ofText #['b', 'a']).sides := by decide
  ⟨plain, (guards_answer_by_sides plain).1 narrow, alike,
    (guards_answer_by_sides plain).2 narrow (.ofText #['b', 'a']) alike⟩

/-- Stepping back behind an assertion leaves the window. -/
example : (charset ⟨false, [⟨.assertion .lineEnd, "$"⟩], "[$]"⟩).attempt (.ofText #['a']) =
    .error (.rollback 1 0) := rfl

end Guard

end WholeMatch
