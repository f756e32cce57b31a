import WholeMatch.IndexSet.Requests
import WholeMatch.Proofs.Members
import WholeMatch.Proofs.Using

namespace WholeMatch

/-- Indices in the order they came, each once. -/
structure Listing where
  members : List Nat
  once : members.Nodup

namespace Listing

def nil : Listing := ⟨[], .nil⟩

/-- An index is put behind the others, unless it is one of them. -/
def add (l : Listing) (i : Nat) : Listing :=
  if new : i ∉ l.members then
    ⟨l.members ++ [i], List.nodup_append.mpr ⟨l.once, by simp, by
      rintro j hj _ hi rfl
      exact new (List.mem_singleton.mp hi ▸ hj)⟩⟩
  else l

/-- What an operation on a set of indices below the capacity answers, and what it leaves. -/
def perform (capacity : Nat) (l : Listing) : SetOp → Except Fault (SetAnswer × Listing)
  | .insert i =>
    if i < capacity then .ok (.flag (decide (i ∉ l.members)), l.add i) else .error .index
  | .contains i =>
    if i < capacity then .ok (.flag (decide (i ∈ l.members)), l) else .error .index
  | .clear => .ok (.done, nil)
  | .capacity => .ok (.number capacity, l)
  | .size => .ok (.number l.members.length, l)
  | .isEmpty => .ok (.flag l.members.isEmpty, l)

/-- The length and the members. -/
def view (l : Listing) : Nat × List Nat := (l.members.length, l.members)

theorem members_add (l : Listing) (i : Nat) : (l.add i).members = addNew l.members i := by
  unfold add
  split
  · next new => exact (addNew_of_notMem new).symm
  · next known => rw [addNew, if_pos (List.contains_iff_mem.mpr (Decidable.not_not.mp known))]

end Listing

/-- A current listing and the next one. -/
structure Listings where
  current : Listing
  next : Listing

namespace Listings

/-- What an operation on frontiers answers, and what it leaves. The next listing becomes the current
one when they advance, and an empty one is the next. -/
def perform (capacity : Nat) (l : Listings) : FrontierOp → Except Fault (SetAnswer × Listings)
  | .current op => do
    let (answer, left) ← l.current.perform capacity op
    return (answer, ⟨left, l.next⟩)
  | .next op => do
    let (answer, left) ← l.next.perform capacity op
    return (answer, ⟨l.current, left⟩)
  | .advance => .ok (.done, ⟨l.next, .nil⟩)

def view (l : Listings) : (Nat × List Nat) × (Nat × List Nat) := (l.current.view, l.next.view)

end Listings

/-- The size and the members. -/
def IndexSet.view (s : IndexSet) : Nat × List Nat := (s.size, s.toList)

def Frontiers.view (f : Frontiers) : (Nat × List Nat) × (Nat × List Nat) :=
  (f.current.view, f.next.view)

namespace IndexSet

variable {s : IndexSet} {n : Nat} {l : Listing}

theorem Lists.view_eq (h : s.Lists n l.members) : s.view = l.view := by
  rw [view, Listing.view, h.members, h.size_eq]

theorem Lists.contains_outside {i : Nat} {ids : List Nat} (h : s.Lists n ids) (outside : ¬ i < n) :
    s.contains i = .error .index := by
  have beyond : s.sparse[i]? = none :=
    Array.getElem?_eq_none (h.sparse_size.symm ▸ Nat.le_of_not_lt outside)
  rw [contains, lookup, beyond]
  rfl

theorem perform_lists (h : s.Lists n l.members) (op : SetOp) :
    Use.Alike (fun s l => s.Lists n l.members) (s.perform op) (l.perform n op) := by
  cases op with
  | insert i =>
    rw [perform, Listing.perform]
    by_cases inside : i < n
    · obtain ⟨t, ht, lists⟩ := h.insert_eq inside
      rw [if_pos inside, ht, ok_bind]
      exact .answered (by rwa [Listing.members_add])
    · rw [if_neg inside, insert, h.contains_outside inside]
      exact .refused
  | contains i =>
    rw [perform, Listing.perform]
    by_cases inside : i < n
    · rw [if_pos inside, h.contains_eq inside, ok_bind]
      exact .answered h
    · rw [if_neg inside, h.contains_outside inside]
      exact .refused
  | clear => exact .answered h.clear
  | capacity =>
    rw [perform, Listing.perform, h.capacity]
    exact .answered h
  | size =>
    rw [perform, Listing.perform, h.size_eq]
    exact .answered h
  | isEmpty =>
    rw [perform, Listing.perform, h.isEmpty_eq]
    exact .answered h

/-- Emptied, a set lists nothing, whatever its tables hold. -/
theorem lists_clear (s : IndexSet) : s.clear.Lists s.capacity [] :=
  ⟨rfl, by simp [toList, clear], by simp⟩

end IndexSet

namespace Frontiers

variable {f : Frontiers} {n : Nat} {l : Listings}

/-- The frontiers are sets of indices below `n` that have the members listed. -/
structure Lists (f : Frontiers) (n : Nat) (l : Listings) : Prop where
  current : f.current.Lists n l.current.members
  next : f.next.Lists n l.next.members

theorem Lists.view_eq (h : f.Lists n l) : f.view = l.view := by
  rw [view, Listings.view, h.current.view_eq, h.next.view_eq]

theorem perform_lists (h : f.Lists n l) (op : FrontierOp) :
    Use.Alike (fun f l => f.Lists n l) (f.perform op) (l.perform n op) := by
  cases op with
  | current op =>
    have outcome := IndexSet.perform_lists h.current op
    rw [perform, Listings.perform]
    generalize f.current.perform op = x at outcome
    generalize l.current.perform n op = y at outcome
    cases outcome with
    | answered left => exact .answered ⟨left, h.next⟩
    | refused => exact .refused
  | next op =>
    have outcome := IndexSet.perform_lists h.next op
    rw [perform, Listings.perform]
    generalize f.next.perform op = x at outcome
    generalize l.next.perform n op = y at outcome
    cases outcome with
    | answered left => exact .answered ⟨h.current, left⟩
    | refused => exact .refused
  | advance => exact .answered ⟨h.next, h.current.clear⟩

end Frontiers

/-- **Index sets are lists in use.** Whatever operations are performed in turn, on a set, on a pair
of frontiers, or on a set that was emptied with anything left over in its tables, they are answered
as those on lists of distinct indices, and the members are those listed, in their order. -/
theorem index_sets_list (capacity : Nat) :
    (∀ ops, Use.seen IndexSet.perform IndexSet.view ops (.empty capacity) =
      Use.seen (Listing.perform capacity) Listing.view ops .nil) ∧
    (∀ ops, Use.seen Frontiers.perform Frontiers.view ops (.empty capacity) =
      Use.seen (Listings.perform capacity) Listings.view ops ⟨.nil, .nil⟩) ∧
    ∀ (s : IndexSet) ops, Use.seen IndexSet.perform IndexSet.view ops s.clear =
      Use.seen (Listing.perform s.capacity) Listing.view ops .nil := by
  have sets (n : Nat) (ops : List SetOp) {s : IndexSet} {l : Listing} (h : s.Lists n l.members) :
      Use.seen IndexSet.perform IndexSet.view ops s =
        Use.seen (Listing.perform n) Listing.view ops l :=
    Use.seen_eq (R := fun s l => s.Lists n l.members) (fun _ _ => IndexSet.Lists.view_eq)
      (fun op _ _ _ related => IndexSet.perform_lists related op) h
  refine ⟨fun ops => ?_, fun ops => ?_, fun s ops => ?_⟩
  · exact sets capacity ops (IndexSet.lists_empty capacity)
  · exact Use.seen_eq (R := fun f l => f.Lists capacity l) (fun _ _ => Frontiers.Lists.view_eq)
      (fun op _ _ _ related => Frontiers.perform_lists related op)
      ⟨IndexSet.lists_empty capacity, IndexSet.lists_empty capacity⟩
  · exact sets s.capacity ops s.lists_clear

end WholeMatch
