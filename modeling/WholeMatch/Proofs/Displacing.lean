import WholeMatch.Proofs.Scanning
import WholeMatch.Proofs.Windows
import WholeMatch.Pattern.Parse

namespace WholeMatch

/-- Why reading failed, as it is told when `s` characters stand before the text. -/
def Failure.behind (s : Nat) : Failure → Failure
  | .malformed m => .malformed ⟨m.cause, m.offset + s⟩
  | .fault f => .fault (f.behind s)

/-- Two readings give what is related, or fail for one reason, places apart. -/
inductive Echoes {α β : Type} (s : Nat) (R : α → β → Prop) :
    Except Failure α → Except Failure β → Prop
  | read {a : α} {b : β} (related : R a b) : Echoes s R (.ok a) (.ok b)
  | failed (e : Failure) : Echoes s R (.error (e.behind s)) (.error e)

namespace Echoes

variable {α β α' β' : Type} {s : Nat} {R : α → β → Prop} {S : α' → β' → Prop}
  {x : Except Failure α} {y : Except Failure β}

theorem malformed (cause : Cause) {place offset : Nat} (here : place = offset + s) :
    Echoes s R (malformed cause place) (WholeMatch.malformed cause offset) := by
  subst here
  exact .failed (.malformed ⟨cause, offset⟩)

theorem bind {f : α → Except Failure α'} {g : β → Except Failure β'} (first : Echoes s R x y)
    (rest : ∀ a b, R a b → Echoes s S (f a) (g b)) :
    Echoes s S (x >>= f) (y >>= g) := by
  cases first with
  | read related => exact rest _ _ related
  | failed e => exact .failed e

end Echoes

/-- The same was read, and what is left are a window and the text of it. -/
structure Reading.Echoes {α : Type} (s : Nat) (d : Cursor) {m n : Nat} (a : Reading m α)
    (b : Reading n α) : Prop where
  value : a.value = b.value
  rest : a.rest.Mirrors s b.rest
  stop : b.rest.stop = d.stop

namespace Cursor.Mirrors

variable {s : Nat} {c d : Cursor}

theorem succ_pos (h : c.Mirrors s d) : c.pos + 1 = d.pos + 1 + s := by
  rw [h.pos, Nat.add_right_comm]

/-- The same stands between two places of the window and between those of its text. -/
theorem extract_eq (h : c.Mirrors s d) {lo hi : Nat} (low : d.start ≤ lo) (high : hi ≤ d.stop) :
    (c.text.extract (lo + s) (hi + s)).toList = (d.text.extract lo hi).toList := by
  have stop := h.stop
  have inside := c.stop_le_size
  have inside' := d.stop_le_size
  apply List.ext_getElem?
  intro i
  rw [Array.getElem?_toList, Array.getElem?_toList, Array.getElem?_extract, Array.getElem?_extract]
  by_cases between : i < hi - lo
  · rw [if_pos (by omega), if_pos (by omega), Nat.add_right_comm]
    exact h.text (lo + i) (by omega) (by omega)
  · rw [if_neg (by omega), if_neg (by omega)]

theorem ahead_eq (h : c.Mirrors s d) : c.ahead = d.ahead := by
  rw [Cursor.ahead, Cursor.upTo, h.pos, h.stop]
  exact h.extract_eq d.start_le_pos (Nat.le_refl _)

theorem back (h : c.Mirrors s d) {x : Char} {c' : Cursor} (hc : c.read = some (x, c')) :
    ∃ d', d.read = some (x, d') ∧ c'.Mirrors s d' := by
  have same := h.peek_eq
  rw [Cursor.peek_of_read hc] at same
  obtain ⟨d', hd⟩ := Cursor.read_of_peek same.symm
  exact ⟨d', hd, h.next hc hd⟩

theorem moveTo_there (h : c.Mirrors s d) {place pos : Nat} (there : place = pos + s) :
    Moved s (c.moveTo place) (d.moveTo pos) :=
  there ▸ h.moveTo pos

theorem slice_eq (h : c.Mirrors s d) {lo hi place place' : Nat} (here : place = lo + s)
    (there : place' = hi + s) (low : d.start ≤ lo) (high : hi ≤ d.stop) :
    c.slice place place' = d.slice lo hi := by
  rw [here, there]
  exact congrArg String.ofList (h.extract_eq low high)

theorem slice_to (h : c.Mirrors s d) {c' d' : Cursor} (h' : c'.Mirrors s d')
    (stop : d'.stop = d.stop) : c.slice c.pos c'.pos = d.slice d.pos d'.pos :=
  h.slice_eq h.pos h'.pos d.start_le_pos (stop ▸ d'.pos_le_stop)

end Cursor.Mirrors

variable {s : Nat} {c d : Cursor} {opened place : Nat}

namespace Reading.Echoes

variable {α : Type} {m n : Nat} {a : Reading m α} {b : Reading n α}

theorem onward {d' : Cursor} (h : a.Echoes s d' b) (leads : d.Leads d') : a.Echoes s d b :=
  ⟨h.value, h.rest, h.stop.trans leads.stop⟩

end Reading.Echoes

/-- What is done with the next character, or where there is none. -/
theorem Echoes.next {α β : Type} {R : α → β → Prop} (h : c.Mirrors s d)
    {x : Except Failure α} {f : ∀ a c', c.read = some (a, c') → Except Failure α}
    {y : Except Failure β} {g : ∀ a d', d.read = some (a, d') → Except Failure β}
    (ends : Echoes s R x y)
    (goesOn : ∀ a c' d' hc hd, c'.Mirrors s d' → d.Leads d' → Echoes s R (f a c' hc) (g a d' hd)) :
    Echoes s R (match hc : c.read with | none => x | some (a, c') => f a c' hc)
      (match hd : d.read with | none => y | some (a, d') => g a d' hd) := by
  split
  · next hc =>
    split
    · exact ends
    · next hd =>
      obtain ⟨_, some, _⟩ := h.onward hd
      cases hc.symm.trans some
  · next hc =>
    obtain ⟨d', some, h'⟩ := h.back hc
    split
    · next hd => cases hd.symm.trans some
    · next hd =>
      cases hd.symm.trans some
      exact goesOn _ _ _ _ _ h' (Cursor.read_eq_some hd).1

/-- What is done where a brace closes, or else. -/
theorem Echoes.closed {α β : Type} {R : α → β → Prop} (h : c.Mirrors s d)
    {x : Except Failure α} {f : ∀ c', c.read = some ('}', c') → Except Failure α}
    {y : Except Failure β} {g : ∀ d', d.read = some ('}', d') → Except Failure β}
    (closes : ∀ c' d' hc hd, c'.Mirrors s d' → d.Leads d' → Echoes s R (f c' hc) (g d' hd))
    (other : Echoes s R x y) :
    Echoes s R (match hc : c.read with | some ('}', c') => f c' hc | _ => x)
      (match hd : d.read with | some ('}', d') => g d' hd | _ => y) := by
  split
  · next hc =>
    obtain ⟨d', brace, h'⟩ := h.back hc
    split
    · next hd =>
      cases hd.symm.trans brace
      exact closes _ _ _ _ h' (Cursor.read_eq_some hd).1
    · next open' => exact absurd brace (open' d')
  · next open' =>
    split
    · next hd =>
      obtain ⟨c', brace, _⟩ := h.onward hd
      exact absurd brace (open' c')
    · exact other

/-- What is done where the window ends, behind a bar, or else. -/
theorem Echoes.branch {α β : Type} {R : α → β → Prop} (h : c.Mirrors s d)
    {x z : Except Failure α} {f : ∀ c', c.read = some ('|', c') → Except Failure α}
    {y w : Except Failure β} {g : ∀ d', d.read = some ('|', d') → Except Failure β}
    (ends : Echoes s R x y)
    (bar : ∀ c' d' hc hd, c'.Mirrors s d' → Echoes s R (f c' hc) (g d' hd))
    (goesOn : Echoes s R z w) :
    Echoes s R (match hc : c.read with | none => x | some ('|', c') => f c' hc | some _ => z)
      (match hd : d.read with | none => y | some ('|', d') => g d' hd | some _ => w) := by
  split
  · next hc =>
    split
    · exact ends
    all_goals
      next hd =>
      obtain ⟨_, some, _⟩ := h.onward hd
      cases hc.symm.trans some
  · next hc =>
    obtain ⟨d', some, h'⟩ := h.back hc
    split
    · next hd => cases hd.symm.trans some
    · next hd =>
      cases hd.symm.trans some
      exact bar _ _ _ _ h'
    · next other hd =>
      cases hd.symm.trans some
      exact (other d' rfl).elim
  · next read other hc =>
    obtain ⟨a, c'⟩ := read
    obtain ⟨d', some, _⟩ := h.back hc
    split
    · next hd => cases hd.symm.trans some
    · next hd =>
      cases hd.symm.trans some
      exact (other c' rfl).elim
    · exact goesOn

/-- What is done from a place that was moved to, if the move was not refused. -/
theorem Echoes.moved {α β : Type} {R : α → β → Prop} {x y : Except Fault Cursor} (h : Moved s x y)
    {f : ∀ c', x = .ok c' → Except Failure α} {g : ∀ d', y = .ok d' → Except Failure β}
    (rest : ∀ c' d' hc hd, c'.Mirrors s d' → Echoes s R (f c' hc) (g d' hd)) :
    Echoes s R (match hc : x with | .error e => .error (.fault e) | .ok c' => f c' hc)
      (match hd : y with | .error e => .error (.fault e) | .ok d' => g d' hd) := by
  cases h with
  | moved mirrors => exact rest _ _ _ _ mirrors
  | refused fault => exact .failed (.fault fault)

/-- What is done behind the bracket at the cursor. -/
theorem Echoes.bracket {α β : Type} {R : α → β → Prop} (h : c.Mirrors s d)
    {f : Cursor → Except Failure α} {g : Cursor → Except Failure β}
    (rest : ∀ c' d', c'.Mirrors s d' → Echoes s R (f c') (g d')) :
    Echoes s R (match c.moveTo (c.pos + 1) with | .error e => .error (.fault e) | .ok c' => f c')
      (match d.moveTo (d.pos + 1) with | .error e => .error (.fault e) | .ok d' => g d') := by
  have moved := h.moveTo_there h.succ_pos
  generalize c.moveTo (c.pos + 1) = x at moved ⊢
  generalize d.moveTo (d.pos + 1) = y at moved ⊢
  cases moved with
  | refused fault => exact .failed (.fault fault)
  | moved h' => exact rest _ _ h'

theorem readEscape_echoes (h : c.Mirrors s d) (inClass : Bool) (there : place = opened + s) :
    Echoes s (Reading.Echoes s d) (readEscape inClass place c) (readEscape inClass opened d) := by
  unfold readEscape
  refine .next h (.malformed _ there) fun x c' d' _ _ h' leads => ?_
  split
  · exact .read ⟨rfl, h', leads.stop⟩
  · exact .malformed _ there

theorem readItem_echoes (h : c.Mirrors s d) :
    Echoes s (Reading.Echoes s d) (readItem c) (readItem d) := by
  unfold readItem
  refine .next h (.malformed _ h.pos) fun x c' d' _ _ h' leads => ?_
  by_cases escapes : x = '\\'
  · simp only [if_pos escapes]
    refine (readEscape_echoes h' false h.pos).bind fun a b test => ?_
    have test := test.onward leads
    exact .read ⟨by simp only [test.value, h.slice_to test.rest test.stop], test.rest, test.stop⟩
  · simp only [if_neg escapes]
    exact .read ⟨by simp only [h.slice_to h' leads.stop], h', leads.stop⟩

theorem rangeEnd_eof (h : c.Mirrors s d) {lo : Char} (hd : rangeEnd lo d = none) :
    rangeEnd lo c = none :=
  rangeEnd_eq_none fun letter hi rest => h.ahead_eq ▸ not_range_of_rangeEnd hd letter hi rest

theorem rangeEnd_onward (h : c.Mirrors s d) {lo hi : Char} {d' : Cursor}
    (hd : rangeEnd lo d = some (hi, d')) :
    ∃ c', rangeEnd lo c = some (hi, c') ∧ c'.Mirrors s d' ∧ d.Leads d' := by
  obtain ⟨letter, dash, hr, hr'⟩ := rangeEnd_eq_some hd
  obtain ⟨dash', hc, hdash⟩ := h.onward hr
  obtain ⟨c', hc', h'⟩ := hdash.onward hr'
  have leads := (Cursor.read_eq_some hr).1.trans (Cursor.read_eq_some hr').1
  exact ⟨c', rangeEnd_of_read letter hc hc', h', leads⟩

/-- What is done with the end of a range, or where there is none. -/
theorem Echoes.range {α β : Type} {R : α → β → Prop} (h : c.Mirrors s d) {lo : Char}
    {x : Except Failure α} {f : ∀ hi c', rangeEnd lo c = some (hi, c') → Except Failure α}
    {y : Except Failure β} {g : ∀ hi d', rangeEnd lo d = some (hi, d') → Except Failure β}
    (ends : ∀ hi c' d' hc hd, c'.Mirrors s d' → d.Leads d' → Echoes s R (f hi c' hc) (g hi d' hd))
    (single : Echoes s R x y) :
    Echoes s R (match hc : rangeEnd lo c with | some (hi, c') => f hi c' hc | none => x)
      (match hd : rangeEnd lo d with | some (hi, d') => g hi d' hd | none => y) := by
  split
  · next hc =>
    split
    · next hd =>
      obtain ⟨_, some, h', leads⟩ := rangeEnd_onward h hd
      cases hc.symm.trans some
      exact ends _ _ _ _ _ h' leads
    · next hd => cases hc.symm.trans (rangeEnd_eof h hd)
  · next hc =>
    split
    · next hd =>
      obtain ⟨_, some, _⟩ := rangeEnd_onward h hd
      cases hc.symm.trans some
    · exact single

theorem readClassItem_echoes (h : c.Mirrors s d) {x : Char} {c' d' : Cursor}
    (hc : c.read = some (x, c')) (hd : d.read = some (x, d')) :
    Echoes s (Reading.Echoes s d) (readClassItem hc) (readClassItem hd) := by
  have h' := h.next hc hd
  have leads := (Cursor.read_eq_some hd).1
  unfold readClassItem
  by_cases escapes : x = '\\'
  · simp only [if_pos escapes]
    refine (readEscape_echoes h' true h.pos).bind fun a b test => ?_
    have test := test.onward leads
    exact .read ⟨by simp only [test.value, h.slice_to test.rest test.stop], test.rest, test.stop⟩
  simp only [if_neg escapes]
  refine .range h' (fun y c'' d'' _ _ h'' further => ?_) ?_
  · have leads := leads.trans further
    split
    · exact .read ⟨by simp only [h.slice_to h'' leads.stop], h'', leads.stop⟩
    · exact .malformed _ h.pos
  · exact .read ⟨by simp only [h.slice_to h' leads.stop], h', leads.stop⟩

theorem readClassItems_echoes (h : c.Mirrors s d) :
    Echoes s (fun items items' => items = items') (readClassItems c) (readClassItems d) := by
  fun_induction readClassItems d generalizing c with
  | case1 d hd =>
    have hc := h.eof hd
    rw [readClassItems]
    split
    · exact .read rfl
    · next some => cases hc.symm.trans some
  | case2 d read hd ih =>
    obtain ⟨c', hc, _⟩ := h.onward hd
    rw [readClassItems]
    split
    · next none => cases hc.symm.trans none
    · next some =>
      cases hc.symm.trans some
      refine (readClassItem_echoes h hc hd).bind fun a b item => ?_
      refine (ih b item.rest).bind fun items items' rest => .read ?_
      rw [item.value, rest]

/-- The caret of a class is taken off on both sides. -/
theorem caret_echoes (h : c.Mirrors s d) {negated negated' : Bool} {c' d' : Cursor}
    (hc : (match c.read with
      | some ('^', next) => (true, next)
      | _ => (false, c)) = (negated', c'))
    (hd : (match d.read with
      | some ('^', next) => (true, next)
      | _ => (false, d)) = (negated, d')) : negated' = negated ∧ c'.Mirrors s d' := by
  split at hc
  · next hr =>
    obtain ⟨_, caret, h'⟩ := h.back hr
    rw [caret] at hd
    cases hc
    cases hd
    exact ⟨rfl, h'⟩
  · next plain =>
    split at hd
    · next hr =>
      obtain ⟨_, caret, _⟩ := h.onward hr
      exact absurd caret (plain _)
    · cases hc
      cases hd
      exact ⟨rfl, h⟩

theorem readCharset_echoes (h : c.Mirrors s d) (label : String) (there : place = opened + s) :
    Echoes s (fun set set' => set = set') (readCharset place label c)
      (readCharset opened label d) := by
  unfold readCharset
  split
  next negated' c' hc =>
  split
  next negated d' hd =>
  obtain ⟨rfl, h'⟩ := caret_echoes h hc hd
  refine (readClassItems_echoes h').bind fun items items' same => ?_
  subst same
  split
  · exact .malformed _ there
  · exact .read rfl

theorem readDigits_echoes {c d : Cursor} (value : Nat) (h : c.Mirrors s d)
    (there : place = opened + s) :
    Echoes s (Reading.Echoes s d) (readDigits place value c) (readDigits opened value d) := by
  rw [readDigits, readDigits]
  refine .next h (.read ⟨rfl, h, rfl⟩) fun x c' d' _ hd h' leads => ?_
  have := Cursor.remaining_of_read hd
  simp only
  split
  · split
    · refine (readDigits_echoes _ h' there).bind fun a b count => ?_
      have count := count.onward leads
      exact .read ⟨count.value, count.rest, count.stop⟩
    · exact .malformed _ there
  · exact .read ⟨rfl, h, rfl⟩
termination_by d.remaining

theorem readCount_echoes (h : c.Mirrors s d) :
    Echoes s (Reading.Echoes s d) (readCount c) (readCount d) := by
  refine (readDigits_echoes 0 h h.pos).bind fun a b count => ?_
  have pos := h.pos
  have behind := count.rest.pos
  by_cases same : b.rest.pos = d.pos
  · rw [if_pos same, if_pos (by omega)]
    exact .malformed _ pos
  · rw [if_neg same, if_neg (by omega)]
    exact .read count

theorem readBounds_echoes (h : c.Mirrors s d) (there : place = opened + s) :
    Echoes s (Reading.Echoes s d) (readBounds place c) (readBounds opened d) := by
  refine (readCount_echoes h).bind fun least least' first => ?_
  obtain ⟨value, h₁, stop₁⟩ := first
  refine .next h₁ (.malformed _ there) fun x c₂ d₂ _ _ h₂ leads₂ => ?_
  have stop₂ := leads₂.stop.trans stop₁
  simp only [value]
  split
  · exact .read ⟨rfl, h₂, stop₂⟩
  split
  · refine .closed h₂ (fun c₃ d₃ _ _ h₃ leads₃ => .read ⟨rfl, h₃, leads₃.stop.trans stop₂⟩) ?_
    refine (readCount_echoes h₂).bind fun most most' second => ?_
    obtain ⟨value', h₃, stop₃⟩ := second
    simp only [value']
    refine .closed h₃ (fun c₄ d₄ _ _ h₄ leads₄ => ?_) (.malformed _ there)
    split
    · exact .malformed _ there
    · exact .read ⟨rfl, h₄, leads₄.stop.trans (stop₃.trans stop₂)⟩
  · exact .malformed _ h₁.pos

theorem readRepeat_echoes (h : c.Mirrors s d) :
    Echoes s (Reading.Echoes s d) (readRepeat c) (readRepeat d) := by
  unfold readRepeat
  refine .next h (.read ⟨rfl, h, rfl⟩) fun x c' d' _ _ h' leads => ?_
  simp only
  split
  case h_4 =>
    refine (readBounds_echoes h' h.pos).bind fun a b bounds => ?_
    have bounds := bounds.onward leads
    exact .read ⟨bounds.value, bounds.rest, bounds.stop⟩
  -- the character is the same on both sides, so what is no sign on one is none on the other
  case h_5 plus star query brace =>
    split
    · exact (plus _ rfl .rfl).elim
    · exact (star _ rfl .rfl).elim
    · exact (query _ rfl .rfl).elim
    · exact (brace _ rfl .rfl).elim
    · exact .read ⟨rfl, h, rfl⟩
  all_goals exact .read ⟨rfl, h', leads.stop⟩

theorem findClassClose_echoes {c d : Cursor} (h : c.Mirrors s d) (there : place = opened + s) :
    Echoes s (fun close close' => close.1 = close'.1 + s) (findClassClose place c)
      (findClassClose opened d) := by
  rw [findClassClose, findClassClose]
  refine .next h (.malformed _ there) fun x c' d' _ hd h' leads => ?_
  have := Cursor.remaining_of_read hd
  simp only
  split
  · exact .read h.pos
  split
  · refine .next h' (.malformed _ there) fun y c'' d'' _ hd' h'' leads' => ?_
    have := Cursor.remaining_of_read hd'
    exact (findClassClose_echoes h'' there).bind fun close close' same => .read same
  · exact (findClassClose_echoes h' there).bind fun close close' same => .read same
termination_by d.remaining

theorem findGroupClose_echoes {c d : Cursor} (depth : Nat) (h : c.Mirrors s d)
    (there : place = opened + s) :
    Echoes s (fun close close' => close = close' + s) (findGroupClose place depth c)
      (findGroupClose opened depth d) := by
  rw [findGroupClose, findGroupClose]
  refine .next h (.malformed _ there) fun x c' d' _ hd h' leads => ?_
  have := Cursor.remaining_of_read hd
  simp only
  split
  · cases depth with
    | zero => exact .read h.pos
    | succ depth => exact findGroupClose_echoes depth h' there
  split
  · exact findGroupClose_echoes (depth + 1) h' there
  split
  · refine .next h' (.malformed _ there) fun y c'' d'' _ hd' h'' leads' => ?_
    have := Cursor.remaining_of_read hd'
    exact findGroupClose_echoes depth h'' there
  split
  · have class' := findClassClose_echoes h' h.pos
    generalize findClassClose c.pos c' = x at class' ⊢
    generalize findClassClose d.pos d' = y at class' ⊢
    cases class' with
    | failed e => exact .failed e
    | @read close close' same =>
      have behind : close.1 + 1 = close'.1 + 1 + s := by omega
      -- both classes end inside the window, so neither move behind them is refused
      refine .moved (h'.moveTo_there behind) fun c'' d'' _ hd'' h'' => ?_
      have : d''.remaining < d.remaining := by
        have := Cursor.moveTo_eq_ok hd''
        have := close'.2
        have := d''.pos_le_stop
        have := leads.stop
        have := leads.pos
        unfold Cursor.remaining at *
        omega
      exact findGroupClose_echoes depth h'' there
  · exact findGroupClose_echoes depth h' there
termination_by d.remaining

/-- A bracket that was taken apart, in a window and in the text of it. -/
structure Brackets (s : Nat) {c d : Cursor} (a : Nat × Enclosed c) (b : Nat × Enclosed d) :
    Prop where
  close : a.1 = b.1 + s
  within : b.1 + 1 ≤ d.stop
  inside : a.2.inside.Mirrors s b.2.inside
  behind : a.2.behind.Mirrors s b.2.behind
  stop : b.2.behind.stop = d.stop

theorem enclosed_echoes (h : c.Mirrors s d) {close close' : Nat} (there : close = close' + s) :
    Echoes s (fun e e' => Brackets s (close, e) (close', e')) (enclosed c close)
      (enclosed d close') := by
  have closes : close + 1 = close' + 1 + s := by
    rw [there, Nat.add_right_comm]
  have window : Moved s (c.window (c.pos + 1) close) (d.window (d.pos + 1) close') := by
    rw [h.succ_pos, there]
    exact h.window (d.pos + 1) close'
  unfold enclosed
  refine .moved window fun inside inside' _ _ within => ?_
  refine .moved (h.moveTo_there closes) fun after after' _ hd behind => ?_
  obtain ⟨_, _, stop, pos⟩ := Cursor.moveTo_eq_ok hd
  exact .read ⟨there, stop ▸ pos ▸ after'.pos_le_stop, within, behind, stop⟩

theorem enclosedClass_echoes (h : c.Mirrors s d) :
    Echoes s (Brackets s) (enclosedClass c) (enclosedClass d) := by
  unfold enclosedClass
  refine .bracket h fun c' d' h' => ?_
  refine (findClassClose_echoes h' h.pos).bind fun close close' same => ?_
  exact (enclosed_echoes h same).bind fun e e' both => .read both

theorem enclosedGroup_echoes (h : c.Mirrors s d) :
    Echoes s (Brackets s) (enclosedGroup c) (enclosedGroup d) := by
  unfold enclosedGroup
  refine .bracket h fun c' d' h' => ?_
  refine (findGroupClose_echoes 0 h' h.pos).bind fun close close' same => ?_
  exact (enclosed_echoes h same).bind fun e e' both => .read both

/-- The branches as they are read when `s` characters stand before the text. -/
def Branches.behind (s : Nat) (bs : Branches) : Branches := ⟨bs.first, bs.stop + s, bs.others⟩

/-- The same branches are read, and the first ends in the window. -/
def Branches.Echoes (s : Nat) (d : Cursor) (bs bs' : Branches) : Prop :=
  bs = bs'.behind s ∧ bs'.stop ≤ d.stop

theorem readAtom_echoes (h : c.Mirrors s d)
    {nested : (inside : Cursor) → inside.remaining < c.remaining → Except Failure Branches}
    {nested' : (inside : Cursor) → inside.remaining < d.remaining → Except Failure Branches}
    (groups : ∀ inside inside' lt lt', inside.Mirrors s inside' →
      Echoes s (Branches.Echoes s inside') (nested inside lt) (nested' inside' lt')) :
    Echoes s (Reading.Echoes s d) (readAtom c nested) (readAtom d nested') := by
  unfold readAtom
  rw [h.peek_eq]
  split
  case h_8 =>
    refine (enclosedGroup_echoes h).bind fun (close, group) (close', group') both => ?_
    refine (groups _ _ group.inside_lt group'.inside_lt both.inside).bind fun bs bs' same => ?_
    obtain ⟨rfl, _⟩ := same
    have label := h.slice_eq h.succ_pos both.close (Nat.le_succ_of_le d.start_le_pos)
      (Nat.le_of_succ_le both.within)
    refine .read ⟨?_, both.behind, both.stop⟩
    simp only [label]
    rfl
  case h_9 =>
    refine (enclosedClass_echoes h).bind fun (close, cls) (close', cls') both => ?_
    have same : close = close' + s := both.close
    have closes : close + 1 = close' + 1 + s := by
      rw [same, Nat.add_right_comm]
    have label := h.slice_eq h.pos closes d.start_le_pos both.within
    simp only [label]
    refine (readCharset_echoes both.inside _ h.pos).bind fun set set' same => ?_
    exact .read ⟨by rw [same], both.behind, both.stop⟩
  case h_10 =>
    refine (readItem_echoes h).bind fun a b item => ?_
    exact .read ⟨by rw [item.value], item.rest, item.stop⟩
  all_goals exact .malformed _ h.pos

/-- **A window is read as its text.** -/
theorem readBranches_echoes {c d : Cursor} (h : c.Mirrors s d) :
    Echoes s (Branches.Echoes s d) (readBranches c) (readBranches d) := by
  rw [readBranches, readBranches]
  refine (readAtom_echoes h fun inside inside' _ lt' h' => readBranches_echoes h').bind
    fun atom atom' same => ?_
  obtain ⟨value, h₁, stop₁⟩ := same
  refine (readRepeat_echoes h₁).bind fun rep rep' same => ?_
  obtain ⟨value', h₂, stop₂⟩ := same
  have stop₂ := stop₂.trans stop₁
  have := atom'.lt
  have := rep'.lt
  have within : rep'.rest.pos ≤ d.stop := stop₂ ▸ rep'.rest.pos_le_stop
  have label := h.slice_eq h.pos h₂.pos d.start_le_pos within
  simp only [value, value', label]
  refine .branch h₂ (.read ⟨?_, within⟩) (fun c' d' _ hd h' => ?_) ?_
  · rw [h₂.pos]
    rfl
  · have := Cursor.remaining_of_read hd
    refine (readBranches_echoes h').bind fun more more' same => ?_
    obtain ⟨rfl, _⟩ := same
    refine .read ⟨?_, within⟩
    rw [h₂.pos]
    rfl
  · refine (readBranches_echoes h₂).bind fun more more' same => ?_
    obtain ⟨rfl, within'⟩ := same
    have within' := Nat.le_trans within' (Nat.le_of_eq stop₂)
    have label' := h.slice_eq h.pos rfl d.start_le_pos within'
    refine .read ⟨?_, within'⟩
    simp only [Branches.behind, label']
termination_by d.remaining

end WholeMatch
