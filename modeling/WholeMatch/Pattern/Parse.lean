import WholeMatch.Pattern.Closing
import WholeMatch.Pattern.Expansion

/-!
```text
pattern    := branches
branches   := branch ('|' branch)*
branch     := (atom repetition?)+
atom       := '(' branches ')' | '[' class ']' | item
class      := '^'? classItem+
repetition := '+' | '*' | '?' | '{' m (',' n?)? '}'
```
-/

namespace WholeMatch

/-- What a repetition applies to. -/
inductive Atom where
  | guard (g : Guard)
  | group (branches : List Branch) (inner : String)

def Atom.repeated : Atom → Repeat → String → Term
  | guard g, rep, label => .guard g rep label
  | group branches inner, rep, label => .group branches inner rep label

/-- What is read from the middle of a branch: the terms that are left of it, where it ends, and
the branches behind it. -/
structure Branches where
  first : Branch
  stop : Nat
  others : List Branch

def Branches.toList (bs : Branches) : List Branch := bs.first :: bs.others

/-- Reads an atom. The inside of a group is left to `nested`. -/
def readAtom (cur : Cursor)
    (nested : (inside : Cursor) → inside.remaining < cur.remaining → Except Failure Branches) :
    Except Failure (Reading cur.remaining Atom) :=
  match cur.peek with
  | none => malformed .expectedAtom cur.pos
  | some '|' => malformed .emptyAlternative cur.pos
  | some ')' => malformed .unmatchedClose cur.pos
  | some '*' | some '+' | some '?' | some '{' => malformed .nothingToRepeat cur.pos
  | some '(' => do
    let (close, group) ← enclosedGroup cur
    let branches ← nested group.inside group.inside_lt
    return ⟨.group branches.toList (cur.slice (cur.pos + 1) close), group.behind, group.behind_lt⟩
  | some '[' => do
    let (close, cls) ← enclosedClass cur
    let charset ← readCharset cur.pos (cur.slice cur.pos (close + 1)) cls.inside
    return ⟨.guard (.charset charset), cls.behind, cls.behind_lt⟩
  | some _ => do
    let item ← readItem cur
    return ⟨.guard (.item item.value), item.rest, item.lt⟩

/-- Reads the window to its end, from the beginning of a term. -/
def readBranches (cur : Cursor) : Except Failure Branches := do
  let atom ← readAtom cur fun inside _ => readBranches inside
  let rep ← readRepeat atom.rest
  have := atom.lt
  have := rep.lt
  let term (stop : Nat) : Term := atom.value.repeated rep.value (cur.slice cur.pos stop)
  match h : rep.rest.read with
  | none => return ⟨[term rep.rest.pos], rep.rest.pos, []⟩
  | some ('|', next) =>
    have := Cursor.remaining_of_read h
    let more ← readBranches next
    return ⟨[term rep.rest.pos], rep.rest.pos, more.toList⟩
  | some _ =>
    let more ← readBranches rep.rest
    return ⟨term more.stop :: more.first, more.stop, more.others⟩
termination_by cur.remaining

/-- The pattern a text denotes. -/
def Pattern.parse (text : String) : Except Failure Pattern := do
  let branches ← readBranches (Cursor.ofText text.toList.toArray)
  let pattern : Pattern := ⟨branches.toList, text⟩
  if pattern.expansion > expansionLimit then malformed .tooManyStates 0
  else return pattern

end WholeMatch
