import WholeMatch.Cursor

namespace WholeMatch

def isWord (c : Char) : Bool := c.isAlphanum || c == '_'

/-- The six blanks of ASCII. -/
def isSpace (c : Char) : Bool :=
  c == ' ' || c == '\t' || c == '\n' || c == '\r' || c == '\x0B' || c == '\x0C'

/-- A named set of characters. Digits, letters and blanks are those of ASCII. -/
inductive CharClass where
  | any
  | digit
  | notDigit
  | word
  | notWord
  | space
  | notSpace
  deriving DecidableEq, Repr

/-- `any` leaves out the two characters that end a line. -/
def CharClass.accepts : CharClass → Char → Bool
  | .any, c => c != '\n' && c != '\r'
  | .digit, c => c.isDigit
  | .notDigit, c => !c.isDigit
  | .word, c => isWord c
  | .notWord, c => !isWord c
  | .space, c => isSpace c
  | .notSpace, c => !isSpace c

inductive Assertion where
  | lineBegin
  | lineEnd
  | boundary
  | nonBoundary
  deriving DecidableEq, Repr

/-- A side of a place counts as blank when it is a blank or the edge of the window. -/
def blankSide (side : Option Char) : Bool := side.all isSpace

/-- What an assertion says of the characters on the two sides of a place. -/
def Assertion.between (behind ahead : Option Char) : Assertion → Bool
  | .lineBegin => behind.all (· == '\n')
  | .lineEnd => ahead.all (· == '\n')
  | .boundary => blankSide behind != blankSide ahead
  | .nonBoundary => blankSide behind == blankSide ahead

def Assertion.holds (a : Assertion) (cur : Cursor) : Bool := a.between cur.lookBehind cur.peek

/-- A test of one character, or of a place. -/
inductive Test where
  | literal (c : Char)
  /-- both ends belong to the range -/
  | range (lo hi : Char)
  | named (cls : CharClass)
  | assertion (a : Assertion)
  deriving DecidableEq, Repr

/-- An assertion accepts no character. -/
def Test.accepts : Test → Char → Bool
  | .literal l, c => c == l
  | .range lo hi, c => decide (lo ≤ c) && decide (c ≤ hi)
  | .named cls, c => cls.accepts c
  | .assertion _, _ => false

/-- A test with the text it was written as. -/
structure Item where
  test : Test
  label : String
  deriving DecidableEq, Repr

namespace Item

def zeroWidth (i : Item) : Bool :=
  match i.test with
  | .assertion _ => true
  | _ => false

/-- Whether the item is satisfied, and the cursor behind what it read: nothing for an assertion,
else one character, wanted or not, unless the window is at its end. -/
def attempt (i : Item) (cur : Cursor) : Bool × Cursor :=
  match i.test with
  | .assertion a => (a.holds cur, cur)
  | test =>
    match cur.read with
    | some (c, next) => (test.accepts c, next)
    | none => (false, cur)

end Item

/-- A bracketed set of items. The label includes the brackets. -/
structure Charset where
  negated : Bool
  items : List Item
  label : String
  deriving DecidableEq, Repr

namespace Charset

/-- Tries the items in order until one is satisfied, stepping back by one behind each that is not.
When none is, the cursor moves on by one. -/
def scan : List Item → Cursor → Except Fault (Bool × Cursor)
  | [], cur => do return (false, ← cur.stepForward 1)
  | i :: items, cur =>
    match i.attempt cur with
    | (true, next) => .ok (true, next)
    | (false, next) => do scan items (← next.stepBack 1)

def attempt (s : Charset) (cur : Cursor) : Except Fault (Bool × Cursor) :=
  if cur.isEof then .ok (false, cur)
  else do
    let (hit, next) ← scan s.items cur
    return (hit != s.negated, next)

end Charset

/-- The smallest test a pattern makes. All matchers test it at a cursor, and get back the cursor
behind what it read. -/
inductive Guard where
  | item (i : Item)
  | charset (s : Charset)
  deriving DecidableEq, Repr

namespace Guard

def label : Guard → String
  | item i => i.label
  | charset s => s.label

def zeroWidth : Guard → Bool
  | item i => i.zeroWidth
  | charset _ => false

/-- No charset holds an assertion. Where one does, the item reads nothing, and stepping back behind
it moves the cursor out of its place, if not out of its window. -/
def plain : Guard → Bool
  | item _ => true
  | charset s => s.items.all (!·.zeroWidth)

/-- Whether the guard is satisfied at the cursor, and the cursor behind what it read. -/
def attempt : Guard → Cursor → Except Fault (Bool × Cursor)
  | item i, cur => .ok (i.attempt cur)
  | charset s, cur => s.attempt cur

end Guard

theorem Item.attempt_leads (i : Item) (cur : Cursor) : cur.Leads (i.attempt cur).2 := by
  unfold Item.attempt
  split
  · exact .refl cur
  · split
    · next h => exact (Cursor.read_eq_some h).1
    · exact .refl cur

/-- An item that is no assertion reads one character, wherever there is one. -/
theorem Item.attempt_eq_of_read {i : Item} (h : i.zeroWidth = false) {cur next : Cursor} {c : Char}
    (hr : cur.read = some (c, next)) : i.attempt cur = (i.test.accepts c, next) := by
  unfold zeroWidth at h
  unfold attempt
  split <;> simp_all

theorem Cursor.stepBack_of_read {cur next : Cursor} {c : Char} (h : cur.read = some (c, next)) :
    next.stepBack 1 = .ok cur := by
  unfold read at h
  split at h
  · cases h
    have := cur.start_le_pos
    simp [stepBack, show 1 ≤ cur.pos + 1 - cur.start by omega]
  · cases h

theorem Cursor.stepForward_of_read {cur next : Cursor} {c : Char} (h : cur.read = some (c, next)) :
    cur.stepForward 1 = .ok next := by
  unfold read at h
  split at h
  · next lt =>
    cases h
    simp [stepForward, show 1 ≤ cur.stop - cur.pos by omega]
  · cases h

theorem Cursor.read_of_not_isEof {cur : Cursor} (h : cur.isEof = false) :
    ∃ c next, cur.read = some (c, next) := by
  simp only [isEof, decide_eq_false_iff_not, Nat.not_le] at h
  simp [read, h]

/-- Items that each read one character leave the cursor one place further, hit or miss. -/
theorem Charset.scan_eq_of_read {items : List Item} (h : items.all (!·.zeroWidth) = true)
    {cur next : Cursor} {c : Char} (hr : cur.read = some (c, next)) :
    scan items cur = .ok (items.any (·.test.accepts c), next) := by
  induction items with
  | nil => rw [scan, Cursor.stepForward_of_read hr, ok_bind]; rfl
  | cons i items ih =>
    simp only [List.all_cons, Bool.and_eq_true, Bool.not_eq_true'] at h
    rw [scan, Item.attempt_eq_of_read h.1 hr]
    cases hi : i.test.accepts c
    · simp [Cursor.stepBack_of_read hr, ok_bind, ih h.2, hi]
    · simp [hi]

/-- A plain guard always answers, and never moves the cursor back. -/
theorem Guard.attempt_of_plain {g : Guard} (h : g.plain = true) (cur : Cursor) :
    ∃ hit next, g.attempt cur = .ok (hit, next) ∧ cur.Leads next := by
  cases g with
  | item i => exact ⟨_, _, rfl, i.attempt_leads cur⟩
  | charset s =>
    simp only [attempt, Charset.attempt]
    cases he : cur.isEof
    · obtain ⟨c, next, hr⟩ := Cursor.read_of_not_isEof he
      refine ⟨s.items.any (·.test.accepts c) != s.negated, next, ?_, (Cursor.read_eq_some hr).1⟩
      simp [Charset.scan_eq_of_read h hr, ok_bind, pure, Except.pure]
    · exact ⟨false, cur, by simp, .refl cur⟩

end WholeMatch
