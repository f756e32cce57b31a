import WholeMatch.Pattern.Guard

namespace WholeMatch

namespace Cursor

variable {cur next mid : Cursor} {c : Char} {u v w : List Char}

/-- The characters from the position up to another. -/
def upTo (cur : Cursor) (hi : Nat) : List Char := (cur.text.extract cur.pos hi).toList

/-- The characters that are left of the window. -/
def ahead (cur : Cursor) : List Char := cur.upTo cur.stop

theorem slice_eq (cur : Cursor) (hi : Nat) : cur.slice cur.pos hi = String.ofList (cur.upTo hi) :=
  rfl

theorem upTo_of_le {hi : Nat} (le : hi ≤ cur.pos) : cur.upTo hi = [] := by
  simp only [upTo, Array.toList_extract, List.extract_eq_take_drop]
  rw [show hi - cur.pos = 0 by omega, List.take_zero]

theorem upTo_of_read (h : cur.read = some (c, next)) {hi : Nat} (le : next.pos ≤ hi) :
    cur.upTo hi = c :: next.upTo hi := by
  obtain ⟨leads, moved, here⟩ := read_eq_some h
  unfold peek at here
  split at here
  · obtain ⟨lt, same⟩ := Array.getElem?_eq_some_iff.mp here
    simp only [upTo, leads.text, moved, Array.toList_extract, List.extract_eq_take_drop]
    rw [List.drop_eq_getElem_cons (by simpa using lt), Array.getElem_toList, same,
      show hi - cur.pos = hi - (cur.pos + 1) + 1 by omega, List.take_succ_cons]
  · cases here

theorem ahead_of_read (h : cur.read = some (c, next)) : cur.ahead = c :: next.ahead := by
  obtain ⟨leads, _, _⟩ := read_eq_some h
  rw [ahead, ahead, ← leads.stop, upTo_of_read h next.pos_le_stop]

theorem ahead_of_eof (h : cur.read = none) : cur.ahead = [] := by
  unfold read at h
  split at h
  · cases h
  · exact upTo_of_le (by omega)

theorem read_of_ahead (h : cur.ahead = c :: w) : ∃ next, cur.read = some (c, next) ∧
    next.ahead = w := by
  cases hr : cur.read with
  | none => rw [ahead_of_eof hr] at h; cases h
  | some read =>
    obtain ⟨c', next⟩ := read
    rw [ahead_of_read hr] at h
    obtain ⟨rfl, rest⟩ := List.cons.inj h
    exact ⟨next, rfl, rest⟩

theorem eof_of_ahead (h : cur.ahead = []) : cur.read = none := by
  cases hr : cur.read with
  | none => rfl
  | some read => rw [ahead_of_read hr] at h; cases h

theorem peek_of_read (h : cur.read = some (c, next)) : cur.peek = some c :=
  (read_eq_some h).2.2

theorem peek_of_eof (h : cur.read = none) : cur.peek = none := by
  unfold read at h
  split at h
  · cases h
  · next past => simp [peek, past]

theorem read_of_peek (h : cur.peek = some c) : ∃ next, cur.read = some (c, next) := by
  cases hr : cur.read with
  | none => rw [peek_of_eof hr] at h; cases h
  | some read =>
    obtain ⟨c', next⟩ := read
    rw [peek_of_read hr] at h
    cases h
    exact ⟨next, rfl⟩

/-- What is ahead is settled by the character that is read. -/
theorem forall_peek_of_read {P : Char → Prop} (hr : cur.read = some (c, next)) (h : P c) :
    ∀ d, cur.peek = some d → P d := by
  intro d hd
  rw [peek_of_read hr] at hd
  cases hd
  exact h

/-- Reading the characters in turn leads from one cursor to the other. -/
def Takes : (w : List Char) → (cur next : Cursor) → Prop
  | [], cur, next => next = cur
  | c :: w, cur, next => ∃ mid, cur.read = some (c, mid) ∧ Takes w mid next

theorem takes_one : cur.Takes [c] next ↔ cur.read = some (c, next) := by
  constructor
  · rintro ⟨mid, hr, rfl⟩
    exact hr
  · exact fun hr => ⟨next, hr, rfl⟩

theorem takes_append :
    cur.Takes (u ++ v) next ↔ ∃ mid, cur.Takes u mid ∧ mid.Takes v next := by
  induction u generalizing cur with
  | nil => exact ⟨fun h => ⟨cur, rfl, h⟩, by rintro ⟨_, rfl, h⟩; exact h⟩
  | cons c u ih =>
    constructor
    · rintro ⟨after, hr, h⟩
      obtain ⟨mid, hu, hv⟩ := ih.mp h
      exact ⟨mid, ⟨after, hr, hu⟩, hv⟩
    · rintro ⟨mid, ⟨after, hr, hu⟩, hv⟩
      exact ⟨after, hr, ih.mpr ⟨mid, hu, hv⟩⟩

theorem Takes.leads (h : cur.Takes w next) : cur.Leads next := by
  induction w generalizing cur with
  | nil => exact h ▸ .refl cur
  | cons c w ih =>
    obtain ⟨mid, hr, h⟩ := h
    exact (read_eq_some hr).1.trans (ih h)

theorem Takes.pos_eq (h : cur.Takes w next) : next.pos = cur.pos + w.length := by
  induction w generalizing cur with
  | nil => exact congrArg pos h
  | cons c w ih =>
    obtain ⟨mid, hr, h⟩ := h
    rw [ih h, (read_eq_some hr).2.1, List.length_cons]
    omega

/-- A place behind the characters that are taken is as far from both cursors. -/
theorem Takes.upTo_eq (h : cur.Takes w next) {hi : Nat} (le : next.pos ≤ hi) :
    cur.upTo hi = w ++ next.upTo hi := by
  induction w generalizing cur with
  | nil => rw [show next = cur from h, List.nil_append]
  | cons c w ih =>
    obtain ⟨mid, hr, h⟩ := h
    rw [upTo_of_read hr (Nat.le_trans h.leads.pos le), ih h, List.cons_append]

theorem Takes.between (h : cur.Takes w next) : cur.upTo next.pos = w := by
  rw [h.upTo_eq (Nat.le_refl _), upTo_of_le (Nat.le_refl _), List.append_nil]

theorem Takes.slice (h : cur.Takes w next) :
    cur.slice cur.pos next.pos = String.ofList w := by
  rw [slice_eq, h.between]

theorem Takes.ahead_eq (h : cur.Takes w next) : cur.ahead = w ++ next.ahead := by
  rw [ahead, ahead, h.leads.stop, h.upTo_eq]
  exact h.leads.stop ▸ next.pos_le_stop

/-- Cursors of one window are told apart by their positions. -/
theorem Leads.eq_of_pos {d : Cursor} (h : cur.Leads next) (h' : cur.Leads d)
    (same : next.pos = d.pos) : next = d := by
  obtain ⟨text, start, stop, pos, _, _, _⟩ := next
  obtain ⟨text', start', stop', pos', _, _, _⟩ := d
  cases h.text.trans h'.text.symm
  cases h.start.trans h'.start.symm
  cases h.stop.trans h'.stop.symm
  cases same
  rfl

theorem Leads.moveTo (h : cur.Leads next) : cur.moveTo next.pos = .ok next := by
  obtain ⟨text, start, stop, pos, low, high, _⟩ := next
  cases h.text
  cases h.start
  cases h.stop
  exact dif_pos ⟨low, high⟩

theorem moveTo_of_read (h : cur.read = some (c, next)) : cur.moveTo (cur.pos + 1) = .ok next := by
  obtain ⟨leads, moved, _⟩ := read_eq_some h
  rw [← moved, leads.moveTo]

theorem leads_of_moveTo {p : Nat} (h : cur.moveTo p = .ok next) (le : cur.pos ≤ p) :
    cur.Leads next := by
  obtain ⟨text, start, stop, pos⟩ := moveTo_eq_ok h
  exact ⟨text, start, stop, pos ▸ le⟩

/-- From a cursor to one further on in its window what stands between them is taken. -/
theorem takes_upTo (h : cur.Leads next) : cur.Takes (cur.upTo next.pos) next := by
  induction hn : next.pos - cur.pos generalizing cur with
  | zero =>
    have le := h.pos
    rw [upTo_of_le (by omega)]
    exact h.eq_of_pos (.refl cur) (by omega)
  | succ n ih =>
    have inside : cur.isEof = false := by
      have := h.stop
      have := next.pos_le_stop
      simp only [isEof, decide_eq_false_iff_not, Nat.not_le]
      omega
    obtain ⟨c, mid, hr⟩ := read_of_not_isEof inside
    obtain ⟨leads, moved, _⟩ := read_eq_some hr
    have onward : mid.Leads next :=
      ⟨h.text.trans leads.text.symm, h.start.trans leads.start.symm,
        h.stop.trans leads.stop.symm, by omega⟩
    rw [upTo_of_read hr onward.pos]
    exact ⟨mid, hr, ih onward (by omega)⟩

/-- The rest of a window can be taken, and then nothing is left. -/
theorem takes_ahead (cur : Cursor) : ∃ last, cur.Takes cur.ahead last ∧ last.read = none := by
  let last : Cursor := ⟨cur.text, cur.start, cur.stop, cur.stop,
    Nat.le_trans cur.start_le_pos cur.pos_le_stop, Nat.le_refl _, cur.stop_le_size⟩
  have leads : cur.Leads last := ⟨rfl, rfl, rfl, cur.pos_le_stop⟩
  exact ⟨last, takes_upTo leads, by simp [read, last]⟩

theorem Takes.to_end (h : cur.Takes w next) (ends : next.read = none) : cur.ahead = w := by
  rw [h.ahead_eq, ahead_of_eof ends, List.append_nil]

end Cursor

end WholeMatch
