import WholeMatch.Cursor.Family
import WholeMatch.Pattern.Expansion
import WholeMatch.Proofs.Taking
import WholeMatch.Proofs.Using

namespace WholeMatch

/-- The sum of two words, where it is a word. -/
def wordSum (a b : Nat) : Option Nat := if a + b ≤ wordMax then some (a + b) else none

/-- The difference of two words, where it is a word. -/
def wordDifference (a b : Nat) : Option Nat := if b ≤ a then some (a - b) else none

theorem wordSum_eq {a b : Nat} (h : a + b ≤ wordMax) : wordSum a b = some (a + b) := if_pos h

theorem wordDifference_eq {a b : Nat} (h : b ≤ a) : wordDifference a b = some (a - b) := if_pos h

namespace Cursor

/-- The outcome of moving to a place that was worked out, if it was. -/
def movedTo (c : Cursor) (answer : CursorAnswer) (place : Option Nat) :
    Option (Except Fault CursorEffect) :=
  place.map fun pos => do return ⟨answer, ← c.moveTo pos, none⟩

/-- An operation with its arithmetic done in words. There is no outcome where a sum or a difference
is no word. -/
def inWords (c : Cursor) : CursorOp → Option (Except Fault CursorEffect)
  | .read =>
    if c.pos < c.stop then c.movedTo (.char c.text[c.pos]?) (wordSum c.pos 1)
    else some (.ok ⟨.char none, c, none⟩)
  | .lookBehind =>
    if c.start < c.pos then
      (wordDifference c.pos 1).map fun before => .ok ⟨.char c.text[before]?, c, none⟩
    else some (.ok ⟨.char none, c, none⟩)
  | .stepBack n => do
    let room ← wordDifference c.pos c.start
    if n ≤ room then c.movedTo .done (wordDifference c.pos n)
    else some (.error (.rollback n c.pos))
  | .stepForward n => do
    let room ← wordDifference c.stop c.pos
    if n ≤ room then c.movedTo .done (wordSum c.pos n)
    else some (.error (.overrun n c.pos))
  | op => some (c.perform op)

theorem movedTo_some {c : Cursor} {answer : CursorAnswer} {pos : Nat} (low : c.start ≤ pos)
    (high : pos ≤ c.stop) : c.movedTo answer (some pos) =
      some (.ok ⟨answer, ⟨c.text, c.start, c.stop, pos, low, high, c.stop_le_size⟩, none⟩) := by
  rw [movedTo, Option.map_some, moveTo, dif_pos ⟨low, high⟩]
  rfl

/-- Nothing overflows, whatever is asked for. -/
theorem inWords_eq {c : Cursor} (fits : c.text.size ≤ wordMax) (op : CursorOp) :
    c.inWords op = some (c.perform op) := by
  have low := c.start_le_pos
  have high := c.pos_le_stop
  have size := c.stop_le_size
  cases op with
  | read =>
    rw [inWords, perform, read]
    by_cases more : c.pos < c.stop
    · have next : wordSum c.pos 1 = some (c.pos + 1) := wordSum_eq (by omega)
      have here : c.text[c.pos]? = some c.text[c.pos] := getElem?_pos ..
      rw [if_pos more, dif_pos more, next, here, movedTo_some (by omega) more]
    · rw [if_neg more, dif_neg more]
  | lookBehind =>
    rw [inWords, perform, lookBehind]
    split
    · rw [wordDifference_eq (by omega)]
      rfl
    · rfl
  | stepBack n =>
    rw [inWords, perform, stepBack, wordDifference_eq low, Option.bind_eq_bind, Option.bind_some]
    by_cases room : n ≤ c.pos - c.start
    · have back : wordDifference c.pos n = some (c.pos - n) := wordDifference_eq (by omega)
      rw [if_pos room, dif_pos room, back, movedTo_some (by omega) (by omega)]
      rfl
    · rw [if_neg room, dif_neg room]
      rfl
  | stepForward n =>
    rw [inWords, perform, stepForward, wordDifference_eq high, Option.bind_eq_bind,
      Option.bind_some]
    by_cases room : n ≤ c.stop - c.pos
    · have forth : wordSum c.pos n = some (c.pos + n) := wordSum_eq (by omega)
      rw [if_pos room, dif_pos room, forth, movedTo_some (by omega) (by omega)]
      rfl
    · rw [if_neg room, dif_neg room]
      rfl
  | _ => rfl

end Cursor

/-- A fault as it reads when `s` characters stand before the text. -/
def Fault.behind (s : Nat) : Fault → Fault
  | .rollback n pos => .rollback n (pos + s)
  | .overrun n pos => .overrun n (pos + s)
  | .position pos start stop => .position (pos + s) (start + s) (stop + s)
  | .window lo hi start stop => .window (lo + s) (hi + s) (start + s) (stop + s)
  | fault => fault

/-- An answer as it reads when `s` characters stand before the text. -/
def CursorAnswer.behind (s : Nat) : CursorAnswer → CursorAnswer
  | .position pos => .position (pos + s)
  | answer => answer

/-- An operation on a cursor that counts places from `s` characters before the text. A place among
those characters is refused. -/
def CursorOp.behind (s : Nat) (c : Cursor) : CursorOp → Except Fault CursorOp
  | .restore pos =>
    if s ≤ pos then .ok (.restore (pos - s)) else .error (.position pos (c.start + s) (c.stop + s))
  | .copyTo pos =>
    if s ≤ pos then .ok (.copyTo (pos - s)) else .error (.position pos (c.start + s) (c.stop + s))
  | .window lo hi =>
    if s ≤ lo ∧ s ≤ hi then .ok (.window (lo - s) (hi - s))
    else .error (.window lo hi (c.start + s) (c.stop + s))
  | op => .ok op

/-- An operation that does not look past the window on purpose. Slices are of the whole text. -/
def CursorOp.Confined : CursorOp → Prop
  | .slice _ _ => False
  | _ => True

namespace CursorFamily

/-- One operation, on the member that is named. -/
def step (f : CursorFamily) (x : Nat × CursorOp) : Except Fault (CursorAnswer × CursorFamily) :=
  f.perform x.1 x.2

/-- One operation that counts places, and is answered, as if `s` characters stood before the
text. -/
def stepBehind (s : Nat) (f : CursorFamily) (x : Nat × CursorOp) :
    Except Fault (CursorAnswer × CursorFamily) :=
  match f.members[x.1]? with
  | none => .error .index
  | some c =>
    match x.2.behind s c with
    | .error fault => .error fault
    | .ok op =>
      match f.perform x.1 op with
      | .error fault => .error (fault.behind s)
      | .ok (answer, g) => .ok (answer.behind s, g)

end CursorFamily

/-- `c` stands in a window that begins behind the first `s` characters of its text, and `d` at the
same place of a text of what is in the window. -/
structure Cursor.Mirrors (s : Nat) (c d : Cursor) : Prop where
  start : c.start = d.start + s
  stop : c.stop = d.stop + s
  pos : c.pos = d.pos + s
  text : ∀ i, d.start ≤ i → i < d.stop → c.text[i + s]? = d.text[i]?

/-- Two moves come to mirrored cursors, or are both refused. -/
inductive Moved (s : Nat) : Except Fault Cursor → Except Fault Cursor → Prop
  | moved {c d : Cursor} (mirrors : c.Mirrors s d) : Moved s (.ok c) (.ok d)
  | refused (fault : Fault) : Moved s (.error (fault.behind s)) (.error fault)

/-- Two operations have the same outcome on mirrored cursors, places apart. -/
inductive Mirrored (s : Nat) : Except Fault CursorEffect → Except Fault CursorEffect → Prop
  | performed (answer : CursorAnswer) {c d : Cursor} {made made' : Option Cursor}
      (after : c.Mirrors s d) (new : Option.Rel (Cursor.Mirrors s) made made') :
      Mirrored s (.ok ⟨answer.behind s, c, made⟩) (.ok ⟨answer, d, made'⟩)
  | refused (fault : Fault) : Mirrored s (.error (fault.behind s)) (.error fault)

theorem Moved.performed {s : Nat} {x y : Except Fault Cursor} (h : Moved s x y) :
    Mirrored s (do return ⟨.done, ← x, none⟩) (do return ⟨.done, ← y, none⟩) := by
  cases h with
  | moved mirrors => exact .performed .done mirrors .none
  | refused fault => exact .refused fault

theorem Moved.made {s : Nat} {c d : Cursor} {x y : Except Fault Cursor} (here : c.Mirrors s d)
    (h : Moved s x y) : Mirrored s (do return ⟨.done, c, some (← x)⟩)
      (do return ⟨.done, d, some (← y)⟩) := by
  cases h with
  | moved mirrors => exact .performed .done here (.some mirrors)
  | refused fault => exact .refused fault

namespace Cursor.Mirrors

variable {s : Nat} {c d : Cursor}

theorem moveTo (h : c.Mirrors s d) (pos : Nat) : Moved s (c.moveTo (pos + s)) (d.moveTo pos) := by
  have start := h.start
  have stop := h.stop
  unfold Cursor.moveTo
  by_cases inside : d.start ≤ pos ∧ pos ≤ d.stop
  · rw [dif_pos inside, dif_pos (by omega)]
    exact .moved ⟨start, stop, rfl, h.text⟩
  · rw [dif_neg inside, dif_neg (by omega), start, stop]
    exact .refused (.position pos d.start d.stop)

theorem window (h : c.Mirrors s d) (lo hi : Nat) :
    Moved s (c.window (lo + s) (hi + s)) (d.window lo hi) := by
  have start := h.start
  have stop := h.stop
  unfold Cursor.window
  by_cases inside : d.start ≤ lo ∧ lo ≤ hi ∧ hi ≤ d.stop
  · rw [dif_pos inside, dif_pos (by omega)]
    exact .moved ⟨rfl, rfl, rfl, fun i low high =>
      h.text i (Nat.le_trans inside.1 low) (Nat.lt_of_lt_of_le high inside.2.2)⟩
  · rw [dif_neg inside, dif_neg (by omega), start, stop]
    exact .refused (.window lo hi d.start d.stop)

theorem stepBack (h : c.Mirrors s d) (n : Nat) : Moved s (c.stepBack n) (d.stepBack n) := by
  have start := h.start
  have pos := h.pos
  have low := d.start_le_pos
  unfold Cursor.stepBack
  by_cases room : n ≤ d.pos - d.start
  · rw [dif_pos room, dif_pos (by omega)]
    exact .moved ⟨start, h.stop, by simp only; omega, h.text⟩
  · rw [dif_neg room, dif_neg (by omega), pos]
    exact .refused (.rollback n d.pos)

theorem stepForward (h : c.Mirrors s d) (n : Nat) :
    Moved s (c.stepForward n) (d.stepForward n) := by
  have stop := h.stop
  have pos := h.pos
  unfold Cursor.stepForward
  by_cases room : n ≤ d.stop - d.pos
  · rw [dif_pos room, dif_pos (by omega)]
    exact .moved ⟨h.start, stop, by simp only; omega, h.text⟩
  · rw [dif_neg room, dif_neg (by omega), pos]
    exact .refused (.overrun n d.pos)

theorem peek_eq (h : c.Mirrors s d) : c.peek = d.peek := by
  have stop := h.stop
  have pos := h.pos
  unfold Cursor.peek
  by_cases more : d.pos < d.stop
  · rw [if_pos more, if_pos (by omega), pos, h.text d.pos d.start_le_pos more]
  · rw [if_neg more, if_neg (by omega)]

theorem lookBehind_eq (h : c.Mirrors s d) : c.lookBehind = d.lookBehind := by
  have start := h.start
  have pos := h.pos
  have high := d.pos_le_stop
  unfold Cursor.lookBehind
  by_cases first : d.start < d.pos
  · have here : c.pos - 1 = d.pos - 1 + s := by omega
    rw [if_pos first, if_pos (by omega), here, h.text (d.pos - 1) (by omega) (by omega)]
  · rw [if_neg first, if_neg (by omega)]

theorem isEof_eq (h : c.Mirrors s d) : c.isEof = d.isEof := by
  have stop := h.stop
  have pos := h.pos
  unfold Cursor.isEof
  rw [decide_eq_decide]
  omega

theorem next (h : c.Mirrors s d) {x y : Char} {c' d' : Cursor} (hc : c.read = some (x, c'))
    (hd : d.read = some (y, d')) : c'.Mirrors s d' := by
  have pos := h.pos
  obtain ⟨leads, moved, _⟩ := Cursor.read_eq_some hc
  obtain ⟨leads', moved', _⟩ := Cursor.read_eq_some hd
  constructor
  case start => rw [leads.start, leads'.start, h.start]
  case stop => rw [leads.stop, leads'.stop, h.stop]
  case pos => omega
  case text =>
    rw [leads.text, leads'.text, leads'.start, leads'.stop]
    exact h.text

theorem eof (h : c.Mirrors s d) (hd : d.read = none) : c.read = none := by
  have same := h.peek_eq
  rw [Cursor.peek_of_eof hd] at same
  cases hc : c.read with
  | none => rfl
  | some read => rw [Cursor.peek_of_read hc] at same; cases same

theorem onward (h : c.Mirrors s d) {x : Char} {d' : Cursor} (hd : d.read = some (x, d')) :
    ∃ c', c.read = some (x, c') ∧ c'.Mirrors s d' := by
  have same := h.peek_eq
  rw [Cursor.peek_of_read hd] at same
  obtain ⟨c', hc⟩ := Cursor.read_of_peek same
  exact ⟨c', hc, h.next hc hd⟩

theorem read (h : c.Mirrors s d) : Mirrored s (c.perform .read) (d.perform .read) := by
  unfold Cursor.perform
  cases hd : d.read with
  | none =>
    rw [h.eof hd]
    exact .performed (.char none) h .none
  | some read =>
    obtain ⟨x, d'⟩ := read
    obtain ⟨c', hc, h'⟩ := h.onward hd
    rw [hc]
    exact .performed (.char (some x)) h' .none

/-- A place before the text is refused in the window, too. -/
theorem perform_refused (h : c.Mirrors s d) {op : CursorOp} {fault : Fault}
    (before : op.behind s d = .error fault) : c.perform op = .error fault := by
  have start := h.start
  have stop := h.stop
  cases op with
  | restore pos | copyTo pos =>
    rw [CursorOp.behind] at before
    split at before
    · cases before
    · cases before
      rw [Cursor.perform, Cursor.moveTo, dif_neg (by omega), start, stop]
      rfl
  | window lo hi =>
    rw [CursorOp.behind] at before
    split at before
    · cases before
    · cases before
      rw [Cursor.perform, Cursor.window, dif_neg (by omega), start, stop]
      rfl
  | _ => cases before

/-- **One operation** has the same outcome in the window as on the text of it. -/
theorem perform_mirrors (h : c.Mirrors s d) {op op' : CursorOp} (confined : op.Confined)
    (within : op.behind s d = .ok op') : Mirrored s (c.perform op) (d.perform op') := by
  cases op with
  | restore pos =>
    rw [CursorOp.behind] at within
    split at within
    · next above =>
      cases within
      have moved := h.moveTo (pos - s)
      rw [Nat.sub_add_cancel above] at moved
      exact moved.performed
    · cases within
  | copyTo pos =>
    rw [CursorOp.behind] at within
    split at within
    · next above =>
      cases within
      have moved := h.moveTo (pos - s)
      rw [Nat.sub_add_cancel above] at moved
      exact moved.made h
    · cases within
  | window lo hi =>
    rw [CursorOp.behind] at within
    split at within
    · next above =>
      cases within
      have moved := h.window (lo - s) (hi - s)
      rw [Nat.sub_add_cancel above.1, Nat.sub_add_cancel above.2] at moved
      exact moved.made h
    · cases within
  | read =>
    cases within
    exact h.read
  | peek =>
    cases within
    rw [Cursor.perform, Cursor.perform, h.peek_eq]
    exact .performed (.char d.peek) h .none
  | lookBehind =>
    cases within
    rw [Cursor.perform, Cursor.perform, h.lookBehind_eq]
    exact .performed (.char d.lookBehind) h .none
  | isEof =>
    cases within
    rw [Cursor.perform, Cursor.perform, h.isEof_eq]
    exact .performed (.flag d.isEof) h .none
  | position =>
    cases within
    rw [Cursor.perform, Cursor.perform, h.pos]
    exact .performed (.position d.pos) h .none
  | slice => exact confined.elim
  | stepBack n =>
    cases within
    exact (h.stepBack n).performed
  | stepForward n =>
    cases within
    exact (h.stepForward n).performed
  | copy =>
    cases within
    exact .performed .done h (.some h)

end Cursor.Mirrors

namespace Cursor

/-- Two cursors stand in one window. -/
structure SameWindow (c d : Cursor) : Prop where
  text : d.text = c.text
  start : d.start = c.start
  stop : d.stop = c.stop

/-- The window of `d` lies in that of `c`. -/
structure Encloses (c d : Cursor) : Prop where
  text : d.text = c.text
  start : c.start ≤ d.start
  stop : d.stop ≤ c.stop

variable {c d : Cursor}

theorem SameWindow.refl (c : Cursor) : c.SameWindow c := ⟨rfl, rfl, rfl⟩

theorem SameWindow.encloses (h : c.SameWindow d) : c.Encloses d :=
  ⟨h.text, Nat.le_of_eq h.start.symm, Nat.le_of_eq h.stop⟩

theorem sameWindow_of_read {x : Char} (h : c.read = some (x, d)) : c.SameWindow d := by
  obtain ⟨leads, _⟩ := read_eq_some h
  exact ⟨leads.text, leads.start, leads.stop⟩

theorem sameWindow_of_moveTo {pos : Nat} (h : c.moveTo pos = .ok d) : c.SameWindow d := by
  obtain ⟨text, start, stop, _⟩ := moveTo_eq_ok h
  exact ⟨text, start, stop⟩

theorem sameWindow_of_stepBack {n : Nat} (h : c.stepBack n = .ok d) : c.SameWindow d := by
  unfold stepBack at h
  split at h
  · cases h
    exact ⟨rfl, rfl, rfl⟩
  · cases h

theorem sameWindow_of_stepForward {n : Nat} (h : c.stepForward n = .ok d) : c.SameWindow d := by
  unfold stepForward at h
  split at h
  · cases h
    exact ⟨rfl, rfl, rfl⟩
  · cases h

theorem encloses_of_window {lo hi : Nat} (h : c.window lo hi = .ok d) : c.Encloses d := by
  unfold window at h
  split at h
  · next inside =>
    cases h
    exact ⟨rfl, inside.1, inside.2.2⟩
  · cases h

/-- An operation leaves a cursor in its window, and makes others in that window only. -/
theorem perform_windows {op : CursorOp} {effect : CursorEffect} (h : c.perform op = .ok effect) :
    c.SameWindow effect.after ∧ ∀ d ∈ effect.made, c.Encloses d := by
  cases op with
  | read =>
    rw [perform] at h
    split at h
    · next hr =>
      cases h
      exact ⟨sameWindow_of_read hr, nofun⟩
    · cases h
      exact ⟨.refl c, nofun⟩
  | peek | lookBehind | isEof | position | slice =>
    cases h
    exact ⟨.refl c, nofun⟩
  | stepBack n =>
    obtain ⟨d, hd, h⟩ := bind_eq_ok.mp h
    cases h
    exact ⟨sameWindow_of_stepBack hd, nofun⟩
  | stepForward n =>
    obtain ⟨d, hd, h⟩ := bind_eq_ok.mp h
    cases h
    exact ⟨sameWindow_of_stepForward hd, nofun⟩
  | restore pos =>
    obtain ⟨d, hd, h⟩ := bind_eq_ok.mp h
    cases h
    exact ⟨sameWindow_of_moveTo hd, nofun⟩
  | copy =>
    cases h
    refine ⟨.refl c, fun d hd => ?_⟩
    cases hd
    exact (SameWindow.refl c).encloses
  | copyTo pos =>
    obtain ⟨d', hd', h⟩ := bind_eq_ok.mp h
    cases h
    refine ⟨.refl c, fun d hd => ?_⟩
    cases hd
    exact (sameWindow_of_moveTo hd').encloses
  | window lo hi =>
    obtain ⟨d', hd', h⟩ := bind_eq_ok.mp h
    cases h
    refine ⟨.refl c, fun d hd => ?_⟩
    cases hd
    exact encloses_of_window hd'

end Cursor

namespace CursorFamily

variable {s i : Nat} {f g : CursorFamily}

/-- The members stand in windows and beside the texts of them, one by one. -/
def Mirrors (s : Nat) (f g : CursorFamily) : Prop :=
  ∀ i : Nat, Option.Rel (Cursor.Mirrors s) f.members[i]? g.members[i]?

theorem Mirrors.size_eq (h : f.Mirrors s g) : f.members.size = g.members.size := by
  apply Nat.le_antisymm
  · apply Nat.le_of_not_lt
    intro lt
    have here := h g.members.size
    rw [Array.getElem?_eq_getElem lt, Array.getElem?_eq_none (Nat.le_refl _)] at here
    cases here
  · apply Nat.le_of_not_lt
    intro lt
    have here := h f.members.size
    rw [Array.getElem?_eq_getElem lt, Array.getElem?_eq_none (Nat.le_refl _)] at here
    cases here

theorem Mirrors.positions_eq (h : f.Mirrors s g) : f.positions = g.positions.map (· + s) := by
  apply List.ext_getElem?
  intro i
  have here := h i
  simp only [positions, List.getElem?_map, Array.getElem?_toList]
  generalize f.members[i]? = x at here
  generalize g.members[i]? = y at here
  cases here with
  | some mirrors => simp [mirrors.pos]
  | none => rfl

theorem perform_of_lt (inside : i < f.members.size) (op : CursorOp) :
    f.perform i op = (f.members[i].perform op).map fun effect =>
      (effect.answer, ⟨f.members.set i effect.after ++ effect.made.toArray⟩) := by
  rw [perform, lookup_of_lt inside, ok_bind]
  cases f.members[i].perform op with
  | error fault => rfl
  | ok effect =>
    rw [ok_bind, store_of_lt inside]
    rfl

theorem perform_of_ge (outside : ¬ i < f.members.size) (op : CursorOp) :
    f.perform i op = .error .index := by
  have beyond : f.members[i]? = none := Array.getElem?_eq_none (Nat.le_of_not_lt outside)
  rw [perform, lookup, beyond]
  rfl

/-- A member that moves, and one that is made of it. -/
theorem Mirrors.change (h : f.Mirrors s g) {c d : Cursor} {made made' : Option Cursor}
    (hf : i < f.members.size) (hg : i < g.members.size) (moved : c.Mirrors s d)
    (new : Option.Rel (Cursor.Mirrors s) made made') :
    Mirrors s ⟨f.members.set i c ++ made.toArray⟩ ⟨g.members.set i d ++ made'.toArray⟩ := by
  intro j
  have size := h.size_eq
  rw [Array.getElem?_append, Array.getElem?_append, Array.size_set, Array.size_set, ← size]
  by_cases old : j < f.members.size
  · rw [if_pos old, if_pos old, Array.getElem?_set, Array.getElem?_set]
    by_cases same : i = j
    · rw [if_pos same, if_pos same]
      exact .some moved
    · rw [if_neg same, if_neg same]
      exact h j
  · rw [if_neg old, if_neg old]
    cases new with
    | none => simp
    | some mirrors =>
      cases j - f.members.size with
      | zero => exact .some mirrors
      | succ => exact .none

/-- **One operation** on a family in a window has the same outcome as on one over the text of it. -/
theorem step_mirrors (h : f.Mirrors s g) {x : Nat × CursorOp} (confined : x.2.Confined) :
    Use.Alike (Mirrors s) (f.step x) (g.stepBehind s x) := by
  obtain ⟨i, op⟩ := x
  rw [step, stepBehind]
  by_cases inside : i < f.members.size
  · have inside' : i < g.members.size := h.size_eq ▸ inside
    have here := h i
    rw [Array.getElem?_eq_getElem inside, Array.getElem?_eq_getElem inside'] at here
    simp only [Array.getElem?_eq_getElem inside', perform_of_lt inside, perform_of_lt inside']
    cases here with
    | some mirrors =>
      -- either a place before the window was named, or the operation is one on the text
      cases hb : op.behind s g.members[i] with
      | error fault =>
        rw [mirrors.perform_refused hb]
        exact .refused
      | ok op' =>
        have outcome := mirrors.perform_mirrors confined hb
        simp only
        generalize f.members[i].perform op = x at outcome
        generalize g.members[i].perform op' = y at outcome
        cases outcome with
        | performed answer moved new => exact .answered (h.change inside inside' moved new)
        | refused fault => exact .refused
  · have outside : ¬ i < g.members.size := h.size_eq ▸ inside
    rw [perform_of_ge inside, Array.getElem?_eq_none (Nat.le_of_not_lt outside)]
    exact .refused

/-- What an operation on the cursor numbered `i` does to the windows of a family. -/
structure Descends (f : CursorFamily) (i : Nat) (g : CursorFamily) : Prop where
  /-- Every cursor keeps its window, and only the one that is named moves. -/
  kept : ∀ (j : Nat) c, f.members[j]? = some c →
    ∃ d, g.members[j]? = some d ∧ c.SameWindow d ∧ (j ≠ i → d = c)
  /-- A new cursor has its window in that of the one it is made of. -/
  made : ∀ (j : Nat) d, g.members[j]? = some d → f.members.size ≤ j →
    ∃ c, f.members[i]? = some c ∧ c.Encloses d

theorem Descends.refl (f : CursorFamily) (i : Nat) : f.Descends i f := by
  refine ⟨fun j c hc => ⟨c, hc, .refl c, fun _ => rfl⟩, fun j d hd new => ?_⟩
  rw [Array.getElem?_eq_none new] at hd
  cases hd

theorem descends_of_perform {op : CursorOp} {answer : CursorAnswer}
    (h : f.perform i op = .ok (answer, g)) : f.Descends i g := by
  by_cases inside : i < f.members.size
  · rw [perform_of_lt inside] at h
    cases he : f.members[i].perform op with
    | error fault => rw [he] at h; cases h
    | ok effect =>
      rw [he] at h
      cases h
      obtain ⟨same, new⟩ := Cursor.perform_windows he
      constructor
      case kept =>
        intro j c hc
        obtain ⟨old, _⟩ := Array.getElem?_eq_some_iff.mp hc
        rw [Array.getElem?_append_left (by simpa using old), Array.getElem?_set]
        by_cases named : i = j
        · subst named
          rw [Array.getElem?_eq_getElem inside] at hc
          cases hc
          exact ⟨effect.after, by rw [if_pos rfl], same, fun other => absurd rfl other⟩
        · exact ⟨c, by rw [if_neg named, hc], .refl c, fun _ => rfl⟩
      case made =>
        intro j d hd beyond
        rw [Array.getElem?_append_right (by simpa using beyond)] at hd
        exact ⟨_, Array.getElem?_eq_getElem inside, new d (by simpa using Array.mem_of_getElem? hd)⟩
  · rw [perform_of_ge inside] at h
    cases h

theorem after_descends (f : CursorFamily) (i : Nat) (op : CursorOp) :
    f.Descends i (Use.after step f (i, op)) := by
  rw [Use.after, step]
  split
  · next h => exact descends_of_perform h
  · exact .refl f i

/-- All cursors are of the text. -/
def Over (text : Array Char) (f : CursorFamily) : Prop := ∀ c ∈ f.members, c.text = text

theorem Descends.keeps {text : Array Char} (h : f.Descends i g) (same : f.Over text) :
    g.Over text := by
  intro d hd
  obtain ⟨j, hj⟩ := Array.mem_iff_getElem?.mp hd
  cases hc : f.members[j]? with
  | some c =>
    obtain ⟨d', hd', window, _⟩ := h.kept j c hc
    rw [hj] at hd'
    cases hd'
    rw [window.text, same c (Array.mem_of_getElem? hc)]
  | none =>
    obtain ⟨c, hc, encloses⟩ := h.made j d hj (Array.getElem?_eq_none_iff.mp hc)
    rw [encloses.text, same c (Array.mem_of_getElem? hc)]

theorem over_all (text : Array Char) (steps : List (Nat × CursorOp)) :
    (steps.foldl (Use.after step) (.ofText text)).Over text := by
  apply Use.after_all (I := Over text) (fun f x same => (after_descends f x.1 x.2).keeps same)
  intro c hc
  rw [ofText, Array.mem_singleton] at hc
  rw [hc]
  rfl

end CursorFamily

/-- A cursor over the text of a window stands beside one in the window. -/
theorem Cursor.exists_mirrors (c : Cursor) :
    ∃ d, (ofText (c.text.extract c.start c.stop)).moveTo (c.pos - c.start) = .ok d ∧
      c.Mirrors c.start d := by
  have low := c.start_le_pos
  have high := c.pos_le_stop
  have inside := c.stop_le_size
  have size : (c.text.extract c.start c.stop).size = c.stop - c.start := by
    rw [Array.size_extract]
    omega
  have room : c.pos - c.start ≤ (c.text.extract c.start c.stop).size := by omega
  refine ⟨_, dif_pos ⟨Nat.zero_le _, room⟩, ?_⟩
  constructor
  case start => exact (Nat.zero_add _).symm
  case stop =>
    simp only [ofText, size]
    omega
  case pos =>
    simp only
    omega
  case text =>
    intro i _ hi
    simp only [ofText, size] at hi
    simp only [ofText]
    rw [Array.getElem?_extract, if_pos (by omega), Nat.add_comm]

namespace CursorFamily

/-- What holds of the cursors of a text at any time. -/
structure Settled (text : Array Char) (f : CursorFamily) : Prop where
  /-- Every cursor stands in its window, and the window in the text. -/
  inside : ∀ c ∈ f.members,
    c.text = text ∧ c.start ≤ c.pos ∧ c.pos ≤ c.stop ∧ c.stop ≤ text.size
  /-- No cursor leaves its window, and a new one has its window in that of another. -/
  descends : ∀ i op, f.Descends i (Use.after step f (i, op))
  /-- An operation that is refused changes nothing. -/
  refused : ∀ x fault, f.step x = .error fault → Use.after step f x = f
  /-- No sum and no difference overflows. -/
  inWords : text.size ≤ wordMax → ∀ c ∈ f.members, ∀ op, c.inWords op = some (c.perform op)
  /-- What is seen of a cursor, and of all that are made of it, is seen of one over the text of its
  window. -/
  windows : ∀ c ∈ f.members,
    ∃ d, (Cursor.ofText (c.text.extract c.start c.stop)).moveTo (c.pos - c.start) = .ok d ∧
      ∀ ops, (∀ x ∈ ops, x.2.Confined) →
        Use.seen step positions ops ⟨#[c]⟩ =
          Use.seen (stepBehind c.start) (fun g => g.positions.map (· + c.start)) ops ⟨#[d]⟩

/-- **A window is a text of its own.** Whatever is done with the cursors of a text, each keeps to
its window, which lies in that of the cursor it was made of, and cannot be told from a cursor over a
text of what is in the window, places apart: characters and ends are the same, and the same
operations are refused, those among others that name a place before the window. -/
theorem cursors_confined (text : Array Char) (steps : List (Nat × CursorOp)) :
    Settled text (steps.foldl (Use.after step) (.ofText text)) := by
  have same := over_all text steps
  constructor
  case inside =>
    intro c hc
    exact ⟨same c hc, c.start_le_pos, c.pos_le_stop, same c hc ▸ c.stop_le_size⟩
  case descends => exact fun i op => after_descends _ i op
  case refused =>
    intro x fault h
    rw [Use.after, h]
  case inWords =>
    intro fits c hc op
    exact Cursor.inWords_eq (same c hc ▸ fits) op
  case windows =>
    intro c _
    obtain ⟨d, hd, mirrors⟩ := c.exists_mirrors
    have initial : Mirrors c.start ⟨#[c]⟩ ⟨#[d]⟩ := by
      rintro (_ | i)
      · exact .some mirrors
      · exact .none
    refine ⟨d, hd, fun ops confined => ?_⟩
    apply Use.seen_eq (R := Mirrors c.start) (fun _ _ => Mirrors.positions_eq) _ initial
    exact fun x hx f g related => step_mirrors related (confined x hx)

end CursorFamily

end WholeMatch
