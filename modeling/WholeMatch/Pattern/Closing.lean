import WholeMatch.Pattern.Reading

namespace WholeMatch

/-- The position of the `]` that closes the class opened at `opened`, from `cur` on. -/
def findClassClose (opened : Nat) (cur : Cursor) :
    Except Failure {close : Nat // cur.pos ≤ close} :=
  match h : cur.read with
  | none => malformed .unterminatedClass opened
  | some (c, next) =>
    have moved := (Cursor.read_eq_some h).1.pos
    have := Cursor.remaining_of_read h
    if c = ']' then .ok ⟨cur.pos, Nat.le_refl _⟩
    else if c = '\\' then
      match h : next.read with
      | none => malformed .unterminatedClass opened
      | some (_, after) => do
        have moved' := (Cursor.read_eq_some h).1.pos
        have := Cursor.remaining_of_read h
        let close ← findClassClose opened after
        return ⟨close, Nat.le_trans moved (Nat.le_trans moved' close.2)⟩
    else do
      let close ← findClassClose opened next
      return ⟨close, Nat.le_trans moved close.2⟩
termination_by cur.remaining

/-- The position of the `)` that closes the group opened at `opened`, from `cur` on, with `depth`
inner groups still open. -/
def findGroupClose (opened depth : Nat) (cur : Cursor) : Except Failure Nat :=
  match h : cur.read with
  | none => malformed .unterminatedGroup opened
  | some (c, next) =>
    have := (Cursor.read_eq_some h).2.1
    have := (Cursor.read_eq_some h).1.stop
    have := Cursor.remaining_of_read h
    if c = ')' then
      match depth with
      | 0 => .ok cur.pos
      | depth + 1 => findGroupClose opened depth next
    else if c = '(' then findGroupClose opened (depth + 1) next
    else if c = '\\' then
      match h : next.read with
      | none => malformed .unterminatedGroup opened
      | some (_, after) =>
        have := Cursor.remaining_of_read h
        findGroupClose opened depth after
    else if c = '[' then
      match findClassClose cur.pos next with
      | .error e => .error e
      | .ok close =>
        match hm : next.moveTo (close + 1) with
        | .error f => .error (.fault f)
        | .ok after =>
          have : after.remaining < cur.remaining := by
            have := Cursor.moveTo_eq_ok hm
            have := close.2
            have := after.pos_le_stop
            unfold Cursor.remaining
            omega
          findGroupClose opened depth after
    else findGroupClose opened depth next
termination_by cur.remaining

/-- The inside of a bracket that opens at `cur`, and the cursor behind the bracket that closes. -/
structure Enclosed (cur : Cursor) where
  inside : Cursor
  behind : Cursor
  inside_lt : inside.remaining < cur.remaining
  behind_lt : behind.remaining < cur.remaining

def enclosed (cur : Cursor) (close : Nat) : Except Failure (Enclosed cur) :=
  match hw : cur.window (cur.pos + 1) close with
  | .error f => .error (.fault f)
  | .ok inside =>
    match hm : cur.moveTo (close + 1) with
    | .error f => .error (.fault f)
    | .ok behind =>
      have hw := Cursor.window_eq_ok hw
      have hm := Cursor.moveTo_eq_ok hm
      .ok ⟨inside, behind, by unfold Cursor.remaining; omega,
        by have := behind.pos_le_stop; unfold Cursor.remaining; omega⟩

/-- The class that opens at the cursor, taken apart. -/
def enclosedClass (cur : Cursor) : Except Failure (Nat × Enclosed cur) :=
  match cur.moveTo (cur.pos + 1) with
  | .error f => .error (.fault f)
  | .ok next => do
    let close ← findClassClose cur.pos next
    return (close, ← enclosed cur close)

/-- The group that opens at the cursor, taken apart. -/
def enclosedGroup (cur : Cursor) : Except Failure (Nat × Enclosed cur) :=
  match cur.moveTo (cur.pos + 1) with
  | .error f => .error (.fault f)
  | .ok next => do
    let close ← findGroupClose cur.pos 0 next
    return (close, ← enclosed cur close)

end WholeMatch
