import WholeMatch.Pattern.Tree
import WholeMatch.Pattern.Malformed

namespace WholeMatch

/-- A value that was read, and the cursor behind it, with fewer than `bound` characters left. -/
structure Reading (bound : Nat) (α : Type) where
  value : α
  rest : Cursor
  lt : rest.remaining < bound

def malformed {α : Type} (cause : Cause) (offset : Nat) : Except Failure α :=
  .error (.malformed ⟨cause, offset⟩)

/-- The characters a backslash makes stand for themselves. -/
def escapable : List Char :=
  ['\\', '.', '*', '+', '?', '{', '}', '[', ']', '(', ')', '^', '$', '|', '-']

/-- What a character means behind a backslash. Inside a class there are no boundaries. -/
def escaped (inClass : Bool) (c : Char) : Option Test :=
  match c with
  | 'd' => some (.named .digit)
  | 'D' => some (.named .notDigit)
  | 'w' => some (.named .word)
  | 'W' => some (.named .notWord)
  | 's' => some (.named .space)
  | 'S' => some (.named .notSpace)
  | 't' => some (.literal '\t')
  | 'r' => some (.literal '\r')
  | 'n' => some (.literal '\n')
  | 'b' => if inClass then none else some (.assertion .boundary)
  | 'B' => if inClass then none else some (.assertion .nonBoundary)
  | c => if escapable.contains c then some (.literal c) else none

/-- What a character means by itself, outside a class. -/
def unescaped (c : Char) : Test :=
  match c with
  | '.' => .named .any
  | '^' => .assertion .lineBegin
  | '$' => .assertion .lineEnd
  | c => .literal c

/-- Reads what follows the backslash at `opened`. -/
def readEscape (inClass : Bool) (opened : Nat) (cur : Cursor) :
    Except Failure (Reading cur.remaining Test) :=
  match h : cur.read with
  | none => malformed .trailingEscape opened
  | some (c, rest) =>
    match escaped inClass c with
    | some test => .ok ⟨test, rest, by have := Cursor.remaining_of_read h; omega⟩
    | none => malformed (.unknownEscape c) opened

/-- Reads an item outside a class. -/
def readItem (cur : Cursor) : Except Failure (Reading cur.remaining Item) :=
  match h : cur.read with
  | none => malformed .expectedAtom cur.pos
  | some (c, next) =>
    have := Cursor.remaining_of_read h
    if c = '\\' then do
      let test ← readEscape false cur.pos next
      return ⟨⟨test.value, cur.slice cur.pos test.rest.pos⟩, test.rest, by have := test.lt; omega⟩
    else .ok ⟨⟨unescaped c, cur.slice cur.pos next.pos⟩, next, by omega⟩

/-- The end of a range that begins with `lo`, when a dash and one more character follow. -/
def rangeEnd (lo : Char) (cur : Cursor) : Option (Char × Cursor) :=
  if lo.isAlphanum then
    match cur.read with
    | some ('-', dash) => dash.read
    | _ => none
  else none

theorem remaining_of_rangeEnd {lo hi : Char} {cur rest : Cursor}
    (h : rangeEnd lo cur = some (hi, rest)) : rest.remaining < cur.remaining := by
  unfold rangeEnd at h
  split at h
  · split at h
    · next dash hd =>
      have := Cursor.remaining_of_read hd
      have := Cursor.remaining_of_read h
      omega
    · cases h
  · cases h

/-- A range runs upward, between two letters or between two digits. -/
def properRange (lo hi : Char) : Bool :=
  (lo.isAlpha && hi.isAlpha || lo.isDigit && hi.isDigit) && decide (lo ≤ hi)

/-- Reads the item of a class that begins with the character read. -/
def readClassItem {cur next : Cursor} {c : Char} (h : cur.read = some (c, next)) :
    Except Failure (Reading cur.remaining Item) :=
  have := Cursor.remaining_of_read h
  if c = '\\' then do
    let test ← readEscape true cur.pos next
    return ⟨⟨test.value, cur.slice cur.pos test.rest.pos⟩, test.rest, by have := test.lt; omega⟩
  else
    match hr : rangeEnd c next with
    | some (hi, rest) =>
      if properRange c hi then
        .ok ⟨⟨.range c hi, cur.slice cur.pos rest.pos⟩, rest,
          by have := remaining_of_rangeEnd hr; omega⟩
      else malformed (.badRange c hi) cur.pos
    | none => .ok ⟨⟨.literal c, cur.slice cur.pos next.pos⟩, next, by omega⟩

/-- Reads the items up to the end of the window. -/
def readClassItems (cur : Cursor) : Except Failure (List Item) :=
  match h : cur.read with
  | none => .ok []
  | some _ => do
    let item ← readClassItem h
    return item.value :: (← readClassItems item.rest)
termination_by cur.remaining
decreasing_by exact item.lt

/-- Reads what stands between the brackets of the class that opens at `opened`. -/
def readCharset (opened : Nat) (label : String) (cur : Cursor) : Except Failure Charset := do
  let (negated, cur) := match cur.read with
    | some ('^', next) => (true, next)
    | _ => (false, cur)
  let items ← readClassItems cur
  if items.isEmpty then malformed .emptyClass opened
  else return ⟨negated, items, label⟩

/-- Reads the digits of the count that begins at `opened`, of which `value` is known already. -/
def readDigits (opened value : Nat) (cur : Cursor) :
    Except Failure (Reading (cur.remaining + 1) Nat) :=
  match h : cur.read with
  | none => .ok ⟨value, cur, by omega⟩
  | some (c, next) =>
    have := Cursor.remaining_of_read h
    if c.isDigit then
      let grown := value * 10 + (c.toNat - '0'.toNat)
      if grown ≤ repeatLimit then do
        let count ← readDigits opened grown next
        return ⟨count.value, count.rest, by have := count.lt; omega⟩
      else malformed .countTooLarge opened
    else .ok ⟨value, cur, by omega⟩
termination_by cur.remaining

def readCount (cur : Cursor) : Except Failure (Reading (cur.remaining + 1) Nat) := do
  let count ← readDigits cur.pos 0 cur
  if count.rest.pos = cur.pos then malformed .expectedCount cur.pos
  else return count

/-- Reads the bounds behind the brace at `opened`, and the brace that closes them. -/
def readBounds (opened : Nat) (cur : Cursor) :
    Except Failure (Reading (cur.remaining + 1) Repeat) := do
  let least ← readCount cur
  have := least.lt
  match h : least.rest.read with
  | none => malformed .unterminatedRepetition opened
  | some (c, next) =>
    have := Cursor.remaining_of_read h
    if c = '}' then return ⟨⟨least.value, some least.value⟩, next, by omega⟩
    else if c = ',' then
      match h : next.read with
      | some ('}', rest) =>
        return ⟨⟨least.value, none⟩, rest, by have := Cursor.remaining_of_read h; omega⟩
      | _ =>
        let most ← readCount next
        have := most.lt
        match h : most.rest.read with
        | some ('}', rest) =>
          if most.value < least.value then
            malformed (.boundsReversed least.value most.value) opened
          else
            return ⟨⟨least.value, some most.value⟩, rest,
              by have := Cursor.remaining_of_read h; omega⟩
        | _ => malformed .unterminatedRepetition opened
    else malformed (.strayInRepetition c) least.rest.pos

/-- Reads a repetition, if there is one. -/
def readRepeat (cur : Cursor) : Except Failure (Reading (cur.remaining + 1) Repeat) :=
  match h : cur.read with
  | none => .ok ⟨.once, cur, by omega⟩
  | some (c, next) =>
    have := Cursor.remaining_of_read h
    match c with
    | '+' => .ok ⟨⟨1, none⟩, next, by omega⟩
    | '*' => .ok ⟨⟨0, none⟩, next, by omega⟩
    | '?' => .ok ⟨⟨0, some 1⟩, next, by omega⟩
    | '{' => do
      let bounds ← readBounds cur.pos next
      return ⟨bounds.value, bounds.rest, by have := bounds.lt; omega⟩
    | _ => .ok ⟨.once, cur, by omega⟩

end WholeMatch
