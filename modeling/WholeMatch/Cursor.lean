import WholeMatch.Fault

/-! A cursor is a read position in a text, confined to a window of it. Positions count from the
beginning of the whole text, so a position read through a narrow window means the same place
outside it. A cursor is a value: moving it gives another cursor, and keeping the old one is all
that going back takes. -/

namespace WholeMatch

/-- A read position in `text`, inside the window from `start` to `stop`. -/
structure Cursor where
  text : Array Char
  start : Nat
  stop : Nat
  pos : Nat
  start_le_pos : start ≤ pos
  pos_le_stop : pos ≤ stop
  stop_le_size : stop ≤ text.size

namespace Cursor

/-- The cursor at the beginning of a text, its window the whole of it. -/
def ofText (text : Array Char) : Cursor where
  text := text
  start := 0
  stop := text.size
  pos := 0
  start_le_pos := Nat.le_refl 0
  pos_le_stop := Nat.zero_le _
  stop_le_size := Nat.le_refl _

/-- The window narrowed to `lo`, `hi`, and the position moved to its beginning. -/
def window (c : Cursor) (lo hi : Nat) : Except Fault Cursor :=
  if h : c.start ≤ lo ∧ lo ≤ hi ∧ hi ≤ c.stop then
    .ok ⟨c.text, lo, hi, lo, Nat.le_refl lo, h.2.1, Nat.le_trans h.2.2 c.stop_le_size⟩
  else .error (.window lo hi c.start c.stop)

/-- The position moved to `pos`. -/
def moveTo (c : Cursor) (pos : Nat) : Except Fault Cursor :=
  if h : c.start ≤ pos ∧ pos ≤ c.stop then
    .ok ⟨c.text, c.start, c.stop, pos, h.1, h.2, c.stop_le_size⟩
  else .error (.position pos c.start c.stop)

/-- The position moved back by `n`. -/
def stepBack (c : Cursor) (n : Nat) : Except Fault Cursor :=
  if h : n ≤ c.pos - c.start then
    .ok ⟨c.text, c.start, c.stop, c.pos - n,
      by have := c.start_le_pos; omega, by have := c.pos_le_stop; omega, c.stop_le_size⟩
  else .error (.rollback n c.pos)

/-- The position moved forward by `n`. -/
def stepForward (c : Cursor) (n : Nat) : Except Fault Cursor :=
  if h : n ≤ c.stop - c.pos then
    .ok ⟨c.text, c.start, c.stop, c.pos + n,
      by have := c.start_le_pos; omega, by have := c.pos_le_stop; omega, c.stop_le_size⟩
  else .error (.overrun n c.pos)

/-- The character at the position; none at the end of the window. -/
def peek (c : Cursor) : Option Char :=
  if c.pos < c.stop then c.text[c.pos]? else none

/-- The character at the position, and the cursor behind it. -/
def read (c : Cursor) : Option (Char × Cursor) :=
  if h : c.pos < c.stop then
    have inside : c.pos < c.text.size := Nat.lt_of_lt_of_le h c.stop_le_size
    some (c.text[c.pos],
      ⟨c.text, c.start, c.stop, c.pos + 1, by have := c.start_le_pos; omega, h, c.stop_le_size⟩)
  else none

/-- The character before the position; none at the beginning of the window. -/
def lookBehind (c : Cursor) : Option Char :=
  if c.start < c.pos then c.text[c.pos - 1]? else none

def isEof (c : Cursor) : Bool := decide (c.stop ≤ c.pos)

/-- The text between two positions, clamped to the whole text and not to the window. -/
def slice (c : Cursor) (lo hi : Nat) : String :=
  String.ofList (c.text.extract lo hi).toList

/-- How many characters the window still holds. -/
def remaining (c : Cursor) : Nat := c.stop - c.pos

/-- `d` stands in the window of `c`, at its position or behind it. -/
structure Leads (c d : Cursor) : Prop where
  text : d.text = c.text
  start : d.start = c.start
  stop : d.stop = c.stop
  pos : c.pos ≤ d.pos

theorem Leads.refl (c : Cursor) : c.Leads c := ⟨rfl, rfl, rfl, Nat.le_refl _⟩

theorem Leads.trans {c d e : Cursor} (h : c.Leads d) (k : d.Leads e) : c.Leads e :=
  ⟨k.text.trans h.text, k.start.trans h.start, k.stop.trans h.stop, Nat.le_trans h.pos k.pos⟩

theorem read_eq_some {c d : Cursor} {x : Char} (h : c.read = some (x, d)) :
    c.Leads d ∧ d.pos = c.pos + 1 ∧ c.peek = some x := by
  unfold read at h
  split at h
  · next lt =>
    cases h
    have := c.stop_le_size
    exact ⟨⟨rfl, rfl, rfl, Nat.le_succ _⟩, rfl, by simp [peek, lt]⟩
  · cases h

theorem remaining_of_read {c d : Cursor} {x : Char} (h : c.read = some (x, d)) :
    d.remaining + 1 = c.remaining := by
  obtain ⟨leads, moved, _⟩ := read_eq_some h
  have := leads.stop; have := d.pos_le_stop; unfold remaining; omega

theorem moveTo_eq_ok {c d : Cursor} {pos : Nat} (h : c.moveTo pos = .ok d) :
    d.text = c.text ∧ d.start = c.start ∧ d.stop = c.stop ∧ d.pos = pos := by
  unfold moveTo at h
  split at h
  · cases h; simp
  · cases h

theorem window_eq_ok {c d : Cursor} {lo hi : Nat} (h : c.window lo hi = .ok d) :
    d.text = c.text ∧ d.start = lo ∧ d.stop = hi ∧ d.pos = lo ∧ lo ≤ hi ∧ hi ≤ c.stop := by
  unfold window at h
  split at h
  · next inside => cases h; simp [inside]
  · cases h

end Cursor

end WholeMatch
