import WholeMatch.Pattern.Tree

namespace WholeMatch

namespace Backtrack

/-- A part of the pattern that is still to match. -/
inductive Goal where
  /-- one of the branches -/
  | branches (bs : List Branch)
  /-- the terms in a row -/
  | chain (ts : List Term)
  /-- a group of which `count` iterations are done, and the terms behind it; a count is a word, and
  `execute` goes no further -/
  | again (body : List Branch) (rep : Repeat) (rest : List Term) (count : Nat)
  /-- the same, with one more iteration done, which began at the position `entered` -/
  | iterated (body : List Branch) (rep : Repeat) (rest : List Term) (count entered : Nat)

/-- A choice that is still open. -/
inductive Frame where
  | resume (cur : Cursor) (cont : List Goal)
  /-- shorter runs of a guard, the longest first, and the terms behind it -/
  | shrink (rest : List Term) (runs : List Cursor) (cont : List Goal)

/-- The paths come in the order of preference: the latest frame is the best that is left. A path is
a match when no goal is left at the end of the text. -/
inductive Config where
  | search (cur : Cursor) (cont : List Goal) (stack : List Frame)
  /-- a path failed -/
  | failed (stack : List Frame)

inductive Outcome where
  | next (c : Config)
  | found
  | lost

/-- A run of a guard: where the longest one ends, and the shorter ones that are enough, the longest
first. -/
structure Run where
  longest : Cursor
  shorter : List Cursor

/-- Leaves the earliest `n` out of a list that has the latest first. -/
def dropEarliest {α : Type} (n : Nat) (xs : List α) : Except Fault (List α) :=
  if n ≤ xs.length then .ok (xs.take (xs.length - n)) else .error .index

/-- The run that ends after `count` repetitions, if they are enough. Of the places it `visited`, the
latest first, those after fewer repetitions than the least number are left out. -/
def endRun (rep : Repeat) (count : Nat) (cur : Cursor) (visited : List Cursor) :
    Except Fault (Option Run) :=
  if count < rep.min then .ok none
  else do return some ⟨cur, ← dropEarliest rep.min visited⟩

/-- Goes on with a run after `count` repetitions. It ends where the guard fails, and where it holds
in place with enough repetitions done. -/
def extendRun (g : Guard) (rep : Repeat) (count : Nat) (cur : Cursor) (visited : List Cursor) :
    Except Fault (Option Run) :=
  if !rep.allowsMore count then endRun rep count cur visited
  else do
    let (hit, next) ← g.attempt cur
    if !hit || decide (next.pos = cur.pos ∧ rep.min ≤ count) then endRun rep count cur visited
    else if count + 1 < words then extendRun g rep (count + 1) next (cur :: visited)
    else .error .count
termination_by words - count

/-- The run of a guard from a cursor; none when it falls short. -/
def guardRun (g : Guard) (rep : Repeat) (cur : Cursor) : Except Fault (Option Run) :=
  extendRun g rep 0 cur []

/-- Executes a goal. -/
def execute (goal : Goal) (cur : Cursor) (cont : List Goal) (stack : List Frame) :
    Except Fault Config :=
  match goal with
  | .branches [] => .ok (.failed stack)
  | .branches (b :: bs) =>
    .ok (.search cur (.chain b :: cont)
      (bs.map (fun b => .resume cur (.chain b :: cont)) ++ stack))
  | .chain [] => .ok (.search cur cont stack)
  | .chain (.guard g rep _ :: rest) => do
    match ← guardRun g rep cur with
    | none => return .failed stack
    | some run =>
      let stack := if run.shorter.isEmpty then stack else .shrink rest run.shorter cont :: stack
      return .search run.longest (.chain rest :: cont) stack
  | .chain (.group body _ rep _ :: rest) => .ok (.search cur (.again body rep rest 0 :: cont) stack)
  | .again body rep rest count =>
    if rep.allowsMore count then
      -- stopping here is the fallback once another iteration fails
      let stack := if rep.min ≤ count then .resume cur (.chain rest :: cont) :: stack else stack
      .ok (.search cur (.branches body :: .iterated body rep rest count cur.pos :: cont) stack)
    else if count < rep.min then .ok (.failed stack)
    else .ok (.search cur (.chain rest :: cont) stack)
  | .iterated body rep rest count entered =>
    -- an empty iteration that was not needed leads nowhere new
    if rep.min ≤ count ∧ cur.pos = entered then .ok (.failed stack)
    else if count + 1 < words then
      .ok (.search cur (.again body rep rest (count + 1) :: cont) stack)
    else .error .count

def step : Config → Except Fault Outcome
  | .search cur [] stack => .ok (if cur.isEof then .found else .next (.failed stack))
  | .search cur (goal :: cont) stack => do return .next (← execute goal cur cont stack)
  | .failed [] => .ok .lost
  | .failed (.resume cur cont :: stack) => .ok (.next (.search cur cont stack))
  | .failed (.shrink _ [] _ :: stack) => .ok (.next (.failed stack))
  | .failed (.shrink rest (cur :: runs) cont :: stack) =>
    let stack := if runs.isEmpty then stack else .shrink rest runs cont :: stack
    .ok (.next (.search cur (.chain rest :: cont) stack))

def initial (p : Pattern) (text : Array Char) : Config :=
  .search (Cursor.ofText text) [.branches p.branches] []

end Backtrack

end WholeMatch
