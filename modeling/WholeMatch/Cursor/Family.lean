import WholeMatch.Cursor

namespace WholeMatch

inductive CursorOp where
  | read
  | peek
  | lookBehind
  | isEof
  | position
  | slice (lo hi : Nat)
  | stepBack (n : Nat)
  | stepForward (n : Nat)
  | restore (pos : Nat)
  | copy
  | copyTo (pos : Nat)
  | window (lo hi : Nat)
  deriving DecidableEq, Repr

inductive CursorAnswer where
  | char (c : Option Char)
  | flag (b : Bool)
  | position (pos : Nat)
  | text (s : String)
  | done
  deriving DecidableEq, Repr

/-- What an operation does: its answer, the cursor afterwards, and a further one if it makes one. -/
structure CursorEffect where
  answer : CursorAnswer
  after : Cursor
  made : Option Cursor

def Cursor.perform (c : Cursor) : CursorOp → Except Fault CursorEffect
  | .read =>
    match c.read with
    | some (x, next) => .ok ⟨.char (some x), next, none⟩
    | none => .ok ⟨.char none, c, none⟩
  | .peek => .ok ⟨.char c.peek, c, none⟩
  | .lookBehind => .ok ⟨.char c.lookBehind, c, none⟩
  | .isEof => .ok ⟨.flag c.isEof, c, none⟩
  | .position => .ok ⟨.position c.pos, c, none⟩
  | .slice lo hi => .ok ⟨.text (c.slice lo hi), c, none⟩
  | .stepBack n => do return ⟨.done, ← c.stepBack n, none⟩
  | .stepForward n => do return ⟨.done, ← c.stepForward n, none⟩
  | .restore pos => do return ⟨.done, ← c.moveTo pos, none⟩
  | .copy => .ok ⟨.done, c, some c⟩
  | .copyTo pos => do return ⟨.done, c, some (← c.moveTo pos)⟩
  | .window lo hi => do return ⟨.done, c, some (← c.window lo hi)⟩

/-- Cursors numbered from zero in the order they were made. -/
structure CursorFamily where
  members : Array Cursor

namespace CursorFamily

def ofText (text : Array Char) : CursorFamily := ⟨#[Cursor.ofText text]⟩

def positions (f : CursorFamily) : List Nat := f.members.toList.map (·.pos)

/-- Performs an operation on the member numbered `i`. -/
def perform (f : CursorFamily) (i : Nat) (op : CursorOp) :
    Except Fault (CursorAnswer × CursorFamily) := do
  let effect ← (← lookup f.members i).perform op
  let members ← store f.members i effect.after
  return (effect.answer, ⟨members ++ effect.made.toArray⟩)

end CursorFamily

end WholeMatch
