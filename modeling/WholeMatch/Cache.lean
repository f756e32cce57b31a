import WholeMatch.Regex.Basic

namespace WholeMatch

/-- A compiled pattern that a cache handed out, with the number of the object. -/
structure Shared where
  object : Nat
  regex : Regex

structure CacheEntry where
  pattern : String
  strategy : Strategy
  shared : Shared

/-- The entries in the order they were made, and the number of objects made so far. -/
structure Cache where
  entries : List CacheEntry
  made : Nat

namespace Cache

def empty : Cache := ⟨[], 0⟩

def size (c : Cache) : Nat := c.entries.length

def isEmpty (c : Cache) : Bool := c.entries.isEmpty

def find? (c : Cache) (pattern : String) (strategy : Strategy) : Option Shared :=
  (c.entries.find? fun e => e.pattern = pattern ∧ e.strategy = strategy).map (·.shared)

/-- Forgets all entries. The objects handed out are not forgotten by those who hold them, so their
numbers are not given again. -/
def clear (c : Cache) : Cache := { c with entries := [] }

/-- The object of a pattern and a matcher, compiled unless it is there. -/
def get (c : Cache) (pattern : String) (strategy : Strategy) :
    Except Failure (Shared × Cache × List Event) :=
  match c.find? pattern strategy with
  | some shared => .ok (shared, c, [.cacheHit pattern])
  | none => do
    let (regex, log) ← Regex.compile pattern strategy
    let shared : Shared := ⟨c.made, regex⟩
    return (shared, ⟨c.entries ++ [⟨pattern, strategy, shared⟩], c.made + 1⟩, log)

end Cache

inductive CacheOp where
  | get (pattern : String) (strategy : Strategy)
  | clear
  | size
  deriving DecidableEq, Repr

inductive CacheAnswer where
  | shared (s : Shared)
  | failed (e : Failure)
  | size (n : Nat)
  | done

namespace Cache

def perform (c : Cache) : CacheOp → CacheAnswer × Cache × List Event
  | .get pattern strategy =>
    match c.get pattern strategy with
    | .ok (shared, after, log) => (.shared shared, after, log)
    | .error e => (.failed e, c, [])
  | .clear => (.done, c.clear, [])
  | .size => (.size c.size, c, [])

end Cache

end WholeMatch
