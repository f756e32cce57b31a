import Mathlib.Data.List.Perm.Subperm
import WholeMatch.IndexSet
import WholeMatch.Arena

namespace WholeMatch

theorem mem_addNew {α : Type} [BEq α] [LawfulBEq α] {xs : List α} {x y : α} :
    y ∈ addNew xs x ↔ y ∈ xs ∨ y = x := by
  unfold addNew
  split
  · next h =>
    have := List.contains_iff_mem.mp h
    constructor
    · exact .inl
    · rintro (h | rfl) <;> assumption
  · simp

theorem addNew_of_notMem {α : Type} [BEq α] [LawfulBEq α] {xs : List α} {x : α} (h : x ∉ xs) :
    addNew xs x = xs ++ [x] :=
  if_neg (by simpa using h)

theorem nodup_addNew {α : Type} [BEq α] [LawfulBEq α] {xs : List α} {x : α} (h : xs.Nodup) :
    (addNew xs x).Nodup := by
  unfold addNew
  split
  · exact h
  · next new =>
    rw [List.contains_iff_mem] at new
    exact List.nodup_append.mpr ⟨h, by simp, by rintro y hy _ hx rfl; simp_all⟩

/-- `m` has those members of `l` that satisfy `P`. -/
def Keeping (P : Nat → Prop) (l m : List Nat) : Prop := ∀ t, t ∈ m ↔ t ∈ l ∧ P t

theorem Keeping.known {P : Nat → Prop} {l m : List Nat} {x : Nat} (h : Keeping P l m)
    (hx : x ∈ l) : Keeping P (addNew l x) m := by
  rwa [addNew, if_pos (List.contains_iff_mem.mpr hx)]

theorem Keeping.miss {P : Nat → Prop} {l m : List Nat} {x : Nat} (h : Keeping P l m)
    (hx : ¬ P x) : Keeping P (addNew l x) m := by
  intro t
  rw [h, mem_addNew]
  constructor
  · rintro ⟨ht, holds⟩
    exact ⟨.inl ht, holds⟩
  · rintro ⟨ht | rfl, holds⟩
    · exact ⟨ht, holds⟩
    · exact absurd holds hx

theorem Keeping.hit {P : Nat → Prop} {l m : List Nat} {x : Nat} (h : Keeping P l m) (hx : P x) :
    Keeping P (addNew l x) (addNew m x) := by
  intro t
  rw [mem_addNew, mem_addNew, h]
  constructor
  · rintro (⟨ht, holds⟩ | rfl)
    · exact ⟨.inl ht, holds⟩
    · exact ⟨.inr rfl, hx⟩
  · rintro ⟨ht | rfl, holds⟩
    · exact .inl ⟨ht, holds⟩
    · exact .inr rfl

theorem mem_foldl_addNew {ts l : List Nat} {x : Nat} :
    x ∈ ts.foldl addNew l ↔ x ∈ l ∨ x ∈ ts := by
  induction ts generalizing l with
  | nil => simp
  | cons t ts ih => rw [List.foldl_cons, ih, mem_addNew, List.mem_cons, or_assoc]

theorem prefix_addNew {l : List Nat} {x : Nat} : l <+: addNew l x := by
  unfold addNew
  split
  · exact List.prefix_rfl
  · exact List.prefix_append ..

theorem prefix_foldl_addNew (ts l : List Nat) : l <+: ts.foldl addNew l := by
  induction ts generalizing l with
  | nil => exact List.prefix_rfl
  | cons t ts ih => exact prefix_addNew.trans (ih _)

/-- A list is worked off from the front: what follows from one further member is added. -/
theorem take_succ_closed {Next : Nat → Nat → Prop} {l l' : List Nat} {i x : Nat}
    (here : l[i]? = some x) (closed : ∀ s ∈ l.take i, ∀ t, Next s t → t ∈ l) (grown : l <+: l')
    (added : ∀ t, Next x t → t ∈ l') : ∀ s ∈ l'.take (i + 1), ∀ t, Next s t → t ∈ l' := by
  intro s hs t ht
  obtain ⟨behind, rfl⟩ := grown
  obtain ⟨lt, _⟩ := List.getElem?_eq_some_iff.mp here
  rw [List.take_append_of_le_length lt, List.take_add_one, here, List.mem_append] at hs
  rcases hs with old | now
  · exact List.mem_append_left _ (closed s old t ht)
  · rw [Option.toList_some, List.mem_singleton] at now
    exact added t (now ▸ ht)

/-- There are no more than `k` of them. -/
def Few {α : Type} (T : α → Prop) (k : Nat) : Prop :=
  ∀ l : List α, l.Nodup → (∀ s ∈ l, T s) → l.length ≤ k

theorem few_range {T : Nat → Prop} {i k : Nat} (h : ∀ s, T s → i ≤ s ∧ s < i + k) : Few T k := by
  intro l once inside
  have below : l ⊆ List.range' i k := fun s hs => List.mem_range'_1.mpr (h s (inside s hs))
  simpa using (List.subperm_of_subset once below).length_le

namespace IndexSet

theorem getElem?_toList (s : IndexSet) (k : Nat) :
    s.toList[k]? = if k < s.size then s.dense[k]? else none := by
  have := s.size_le
  rw [toList, Array.getElem?_toList, Array.getElem?_extract]
  simp [Nat.min_eq_left this]

theorem length_toList (s : IndexSet) : s.toList.length = s.size := by
  have := s.size_le
  simp [toList]
  omega

/-- The set is for indices below `n` and has the members `l`, each of which `sparse` puts where it
stands. -/
structure Lists (s : IndexSet) (n : Nat) (l : List Nat) : Prop where
  capacity : s.capacity = n
  members : s.toList = l
  placed : ∀ k i : Nat, l[k]? = some i → s.sparse[i]? = some k

variable {s : IndexSet} {n i : Nat} {l : List Nat}

theorem lists_empty (n : Nat) : (empty n).Lists n [] :=
  ⟨by simp [IndexSet.capacity, empty], by simp [toList, empty], by simp⟩

namespace Lists

theorem clear (h : s.Lists n l) : s.clear.Lists n [] :=
  ⟨h.capacity, by simp [toList, IndexSet.clear], by simp⟩

theorem size_eq (h : s.Lists n l) : s.size = l.length := by
  rw [← h.members, length_toList]

theorem isEmpty_eq (h : s.Lists n l) : s.isEmpty = l.isEmpty := by
  rw [isEmpty, h.size_eq]
  cases l <;> rfl

theorem sparse_size (h : s.Lists n l) : s.sparse.size = n := s.same_size.trans h.capacity

theorem dense_eq (h : s.Lists n l) {k : Nat} (hk : k < l.length) : s.dense[k]? = l[k]? := by
  have e := getElem?_toList s k
  rw [h.members, if_pos (h.size_eq ▸ hk)] at e
  exact e.symm

theorem getElem?_eq (h : s.Lists n l) (hi : i < s.size) (inside : i < s.dense.size) :
    l[i]? = some s.dense[i] := by
  rw [← h.dense_eq (h.size_eq ▸ hi), Array.getElem?_eq_getElem inside]

theorem lt_of_mem (h : s.Lists n l) (hi : i ∈ l) : i < n := by
  obtain ⟨k, hk⟩ := List.mem_iff_getElem?.mp hi
  obtain ⟨lt, _⟩ := Array.getElem?_eq_some_iff.mp (h.placed k i hk)
  exact h.sparse_size ▸ lt

theorem nodup (h : s.Lists n l) : l.Nodup := by
  rw [List.nodup_iff_pairwise_ne, List.pairwise_iff_getElem]
  intro a b ha hb lt same
  have hb' := h.placed b l[a] (by simp [same, hb])
  rw [h.placed a l[a] (by simp [ha])] at hb'
  cases hb'
  omega

/-- Where an index is absent there is room for it. -/
theorem length_lt (h : s.Lists n l) (hi : i < n) (absent : i ∉ l) : l.length < n := by
  have distinct : (i :: l).Nodup := List.nodup_cons.mpr ⟨absent, h.nodup⟩
  have below : i :: l ⊆ List.range n := by
    intro x hx
    rw [List.mem_range]
    rcases List.mem_cons.mp hx with rfl | hx
    · exact hi
    · exact h.lt_of_mem hx
  have := (List.subperm_of_subset distinct below).length_le
  rwa [List.length_cons, List.length_range] at this

theorem contains_eq (h : s.Lists n l) (hi : i < n) : s.contains i = .ok (decide (i ∈ l)) := by
  have room : i < s.sparse.size := h.sparse_size.symm ▸ hi
  have same : (decide (s.sparse[i] < s.size) && s.dense[s.sparse[i]]? == some i) =
      decide (i ∈ l) := by
    rw [Bool.eq_iff_iff]
    simp only [Bool.and_eq_true, decide_eq_true_eq, beq_iff_eq, h.size_eq]
    constructor
    · rintro ⟨lt, e⟩
      rw [h.dense_eq lt] at e
      exact List.mem_of_getElem? e
    · intro hm
      obtain ⟨k, hk⟩ := List.mem_iff_getElem?.mp hm
      have e := h.placed k i hk
      rw [Array.getElem?_eq_getElem room] at e
      cases e
      obtain ⟨lt, _⟩ := List.getElem?_eq_some_iff.mp hk
      exact ⟨lt, (h.dense_eq lt).trans hk⟩
  rw [IndexSet.contains, lookup_of_lt room, ok_bind, ← same]
  rfl

theorem append_eq (h : s.Lists n l) (hi : i < n) (absent : i ∉ l) :
    ∃ t, s.append i = .ok t ∧ t.Lists n (l ++ [i]) := by
  have room := h.length_lt hi absent
  have hsize := h.size_eq
  have hcap : s.dense.size = n := h.capacity
  have hsparse := h.sparse_size
  have hmem := h.members
  have hplaced := h.placed
  obtain ⟨size, dense, sparse, _, _⟩ := s
  simp only at hsize hcap hsparse hplaced
  subst hsize
  refine ⟨_, by simp only [append]; rw [dif_pos (by omega), dif_pos (by omega)], ?_⟩
  refine ⟨by simp [IndexSet.capacity, hcap], ?_, fun k j hk => ?_⟩
  · apply List.ext_getElem?
    intro k
    rw [getElem?_toList]
    have hk := getElem?_toList ⟨l.length, dense, sparse, by assumption, by assumption⟩ k
    rw [hmem] at hk
    simp only at hk ⊢
    rw [Array.getElem?_set]
    rcases Nat.lt_trichotomy k l.length with lt | rfl | gt
    · rw [if_pos (by omega), if_neg (by omega), List.getElem?_append_left lt, hk, if_pos lt]
    · simp
    · rw [if_neg (by omega), List.getElem?_eq_none (by simp; omega)]
  · rw [Array.getElem?_set]
    rcases Nat.lt_trichotomy k l.length with lt | rfl | gt
    · rw [List.getElem?_append_left lt] at hk
      have other : i ≠ j := fun e => absent (e ▸ List.mem_of_getElem? hk)
      rw [if_neg other]
      exact hplaced k j hk
    · simp at hk
      simp [hk]
    · rw [List.getElem?_eq_none (by simp; omega)] at hk
      cases hk

/-- Inserting adds an absent index behind the members, and says whether it was absent. -/
theorem insert_eq (h : s.Lists n l) (hi : i < n) :
    ∃ t, s.insert i = .ok (decide (i ∉ l), t) ∧ t.Lists n (addNew l i) := by
  rw [IndexSet.insert, h.contains_eq hi, ok_bind]
  by_cases known : i ∈ l
  · exact ⟨s, by simp [known, pure, Except.pure], by simpa [addNew, known] using h⟩
  · obtain ⟨t, ht, lists⟩ := h.append_eq hi known
    exact ⟨t, by simp [known, ht, ok_bind, pure, Except.pure], by simpa [addNew, known] using lists⟩

theorem insert_known (h : s.Lists n l) (hi : i < n) {t : IndexSet}
    (e : s.insert i = .ok (false, t)) : i ∈ l ∧ t.Lists n l := by
  obtain ⟨u, hu, lists⟩ := h.insert_eq hi
  rw [hu, Except.ok.injEq, Prod.mk.injEq] at e
  obtain ⟨known, rfl⟩ := e
  have known : i ∈ l := by simpa using known
  exact ⟨known, by simpa [addNew, known] using lists⟩

theorem insert_new (h : s.Lists n l) (hi : i < n) {t : IndexSet}
    (e : s.insert i = .ok (true, t)) : i ∉ l ∧ t.Lists n (l ++ [i]) := by
  obtain ⟨u, hu, lists⟩ := h.insert_eq hi
  rw [hu, Except.ok.injEq, Prod.mk.injEq] at e
  obtain ⟨new, rfl⟩ := e
  have new : i ∉ l := by simpa using new
  exact ⟨new, by simpa [addNew, new] using lists⟩

theorem insert_ne_error (h : s.Lists n l) (hi : i < n) {f : Fault} : s.insert i ≠ .error f := by
  obtain ⟨u, hu, _⟩ := h.insert_eq hi
  simp [hu]

end Lists

end IndexSet

end WholeMatch
