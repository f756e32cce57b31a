import WholeMatch.Nfa.Basic

/-! The simulation keeps the set of states a run can be in. At each place of the text every state of
the frontier is expanded, depth first, through free edges and through assertions that hold there;
a state whose guard accepts the character at that place goes into the next frontier. One set of
states seen per place keeps cycles of free edges from going on for ever. -/

namespace WholeMatch

namespace Nfa

/-- An expansion: the states seen at this place, the next frontier, and whether the goal was
entered. -/
structure Walk where
  seen : IndexSet
  next : IndexSet
  found : Bool

/-- How a state can be entered at a place. -/
inductive Entry where
  | closed
  /-- without reading -/
  | free
  /-- by reading the character at the place -/
  | consuming
  deriving DecidableEq, Repr

def entry (n : Nfa) (place : Cursor) (id : Nat) : Except Fault Entry := do
  match ← n.guardOf id with
  | none => return .free
  | some guard =>
    let (hit, _) ← guard.attempt place
    return if !hit then .closed else if guard.zeroWidth then .free else .consuming

/-- Enters the targets in turn, then expands the states of the stack, the latest first. Every
state is tried once, whatever comes of it, and the walk ends early when it enters `goal`. -/
def walk (n : Nfa) (place : Cursor) (goal : Option Nat) (targets stack : List Nat)
    (seen next : IndexSet) : Except Fault Walk :=
  match targets with
  | [] =>
    match stack with
    | [] => .ok ⟨seen, next, false⟩
    | id :: stack =>
      match n.edges id with
      | .error f => .error f
      | .ok targets => n.walk place goal targets stack seen next
  | target :: targets =>
    match h : seen.insert target with
    | .error f => .error f
    | .ok (false, after) =>
      have := IndexSet.eq_of_insert h
      n.walk place goal targets stack after next
    | .ok (true, after) =>
      have := IndexSet.room_of_insert h
      match n.entry place target with
      | .error f => .error f
      | .ok .closed => n.walk place goal targets stack after next
      | .ok .free =>
        if goal = some target then .ok ⟨after, next, true⟩
        else n.walk place goal targets (target :: stack) after next
      | .ok .consuming =>
        if goal = some target then .ok ⟨after, next, true⟩
        else
          match next.insert target with
          | .error f => .error f
          | .ok (_, next) => n.walk place goal targets stack after next
termination_by (2 * seen.room + stack.length, targets.length)
decreasing_by
  · exact Prod.Lex.left _ _ (by simp)
  · subst after; exact Prod.Lex.right _ (by simp)
  · exact Prod.Lex.left _ _ (by omega)
  · exact Prod.Lex.left _ _ (by simp; omega)
  · exact Prod.Lex.left _ _ (by omega)

/-- Expands the states of a frontier in turn, into the next one. -/
def walkAll (n : Nfa) (place : Cursor) : List Nat → IndexSet → IndexSet →
    Except Fault (IndexSet × IndexSet)
  | [], seen, next => .ok (seen, next)
  | id :: ids, seen, next => do
    let w ← n.walk place none [] [id] seen next
    n.walkAll place ids w.seen w.next

/-- Whether one of the states accepts, or leads to the accepting state without reading. -/
def accepts (n : Nfa) (place : Cursor) : List Nat → IndexSet → IndexSet → Except Fault Bool
  | [], _, _ => .ok false
  | id :: ids, seen, next => do
    if id = n.accept then return true
    else
      let w ← n.walk place (some n.accept) [] [id] seen next
      if w.found then return true else n.accepts place ids w.seen w.next

/-- Steps the frontier over the places from `pos` on, of which `left` have a character. -/
def step (n : Nfa) (subject : Cursor) : (left pos : Nat) → Frontiers → IndexSet → Except Fault Bool
  | 0, pos, ⟨current, next⟩, seen => do
    n.accepts (← subject.moveTo pos) current.toList seen.clear next
  | left + 1, pos, ⟨current, next⟩, seen => do
    let (seen, next) ← n.walkAll (← subject.moveTo pos) current.toList seen.clear next
    if next.isEmpty then return false
    else n.step subject left (pos + 1) (Frontiers.advance ⟨current, next⟩) seen

/-- Whether a run from the start to the accepting state reads the whole text. -/
def isMatch (n : Nfa) (text : Array Char) : Except Fault Bool := do
  let (_, current) ← (IndexSet.empty n.size).insert n.start
  n.step (Cursor.ofText text) text.size 0 ⟨current, .empty n.size⟩ (.empty n.size)

end Nfa

end WholeMatch
