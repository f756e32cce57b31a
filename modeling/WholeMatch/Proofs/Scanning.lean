import WholeMatch.Pattern.Closing
import WholeMatch.Proofs.Counting

namespace WholeMatch

open Grammar

variable {cur next : Cursor} {c : Char} {w : List Char} {opened depth : Nat}

/-- **A class ends** at the first bracket that is not escaped. -/
theorem findClassClose_sound {close : {close : Nat // cur.pos ≤ close}}
    (h : findClassClose opened cur = .ok close) :
    ∃ w last next, cur.Takes w last ∧ Unclosed w ∧ last.read = some (']', next) ∧
      close.1 = last.pos := by
  fun_induction findClassClose opened cur with
  | case1 => cases h
  | case2 cur next hr =>
    cases h
    exact ⟨[], cur, next, rfl, .nil, hr, rfl⟩
  | case3 => cases h
  | case4 cur next c after hr' _ _ hr _ _ _ ih =>
    obtain ⟨close', hc, h⟩ := bind_eq_ok.mp h
    cases h
    obtain ⟨w, last, behind, takes, unclosed, closes, pos⟩ := ih hc
    exact ⟨'\\' :: c :: w, last, behind, ⟨next, hr, after, hr', takes⟩, .escape unclosed, closes,
      pos⟩
  | case5 cur c next hr _ _ inside plain ih =>
    obtain ⟨close', hc, h⟩ := bind_eq_ok.mp h
    cases h
    obtain ⟨w, last, behind, takes, unclosed, closes, pos⟩ := ih hc
    exact ⟨c :: w, last, behind, ⟨next, hr, takes⟩, .cons plain inside unclosed, closes, pos⟩

theorem findClassClose_complete (opened : Nat) (unclosed : Unclosed w) :
    ∀ {cur last : Cursor}, cur.Takes w last → last.read = some (']', next) →
      ∃ close, findClassClose opened cur = .ok close ∧ close.1 = last.pos := by
  induction unclosed with
  | nil =>
    intro cur last takes closes
    obtain rfl : last = cur := takes
    rw [findClassClose]
    split
    · next none => rw [closes] at none; cases none
    · next some =>
      rw [closes] at some
      cases some
      exact ⟨_, rfl, rfl⟩
  | escape rest ih =>
    rintro cur last ⟨mid, hr, after, hr', takes⟩ closes
    obtain ⟨close, hc, pos⟩ := ih takes closes
    rw [findClassClose]
    split
    · next none => rw [hr] at none; cases none
    · next some =>
      rw [hr] at some
      cases some
      simp only [Char.reduceEq, if_false, if_true]
      split
      · next none => rw [hr'] at none; cases none
      · next some =>
        rw [hr'] at some
        cases some
        rw [hc, ok_bind]
        exact ⟨_, rfl, pos⟩
  | cons plain inside rest ih =>
    rintro cur last ⟨mid, hr, takes⟩ closes
    obtain ⟨close, hc, pos⟩ := ih takes closes
    rw [findClassClose]
    split
    · next none => rw [hr] at none; cases none
    · next some =>
      rw [hr] at some
      cases some
      simp only [if_neg inside, if_neg plain]
      rw [hc, ok_bind]
      exact ⟨_, rfl, pos⟩

/-- **A group ends** at a parenthesis. -/
theorem findGroupClose_sound {close : Nat} (h : findGroupClose opened depth cur = .ok close) :
    ∃ last next, cur.Leads last ∧ last.read = some (')', next) ∧ close = last.pos := by
  fun_induction findGroupClose opened depth cur with
  | case1 | case5 | case7 | case8 => cases h
  | case2 cur next hr =>
    cases h
    exact ⟨cur, next, .refl cur, hr, rfl⟩
  | case3 cur next depth hr _ _ _ ih | case4 depth cur next hr _ _ _ _ ih =>
    obtain ⟨last, behind, leads, closes, pos⟩ := ih h
    exact ⟨last, behind, (Cursor.read_eq_some hr).1.trans leads, closes, pos⟩
  | case6 depth cur next c after hr' _ hr =>
    rename_i ih
    obtain ⟨last, behind, leads, closes, pos⟩ := ih h
    exact ⟨last, behind, (Cursor.read_eq_some hr).1.trans
      ((Cursor.read_eq_some hr').1.trans leads), closes, pos⟩
  | case9 depth cur next close' _ after hm hr =>
    rename_i ih
    obtain ⟨last, behind, leads, closes, pos⟩ := ih h
    have inner := Cursor.leads_of_moveTo hm (Nat.le_succ_of_le close'.2)
    exact ⟨last, behind, (Cursor.read_eq_some hr).1.trans (inner.trans leads), closes, pos⟩
  | case10 depth cur c next hr =>
    rename_i ih
    obtain ⟨last, behind, leads, closes, pos⟩ := ih h
    exact ⟨last, behind, (Cursor.read_eq_some hr).1.trans leads, closes, pos⟩

theorem findGroupClose_here (hr : cur.read = some (')', next)) :
    findGroupClose opened 0 cur = .ok cur.pos := by
  rw [findGroupClose]
  split
  · next none => rw [hr] at none; cases none
  · next some =>
    rw [hr] at some
    cases some
    rfl

theorem findGroupClose_close (hr : cur.read = some (')', next)) :
    findGroupClose opened (depth + 1) cur = findGroupClose opened depth next := by
  rw [findGroupClose]
  split
  · next none => rw [hr] at none; cases none
  · next some =>
    rw [hr] at some
    cases some
    rfl

theorem findGroupClose_open (hr : cur.read = some ('(', next)) :
    findGroupClose opened depth cur = findGroupClose opened (depth + 1) next := by
  rw [findGroupClose]
  split
  · next none => rw [hr] at none; cases none
  · next some =>
    rw [hr] at some
    cases some
    rfl

/-- No group is closed on the way over these characters, whatever is open around them. -/
def Skipped (w : List Char) : Prop :=
  ∀ opened depth cur next, Cursor.Takes w cur next →
    findGroupClose opened depth cur = findGroupClose opened depth next

namespace Skipped

variable {u v : List Char}

theorem nil : Skipped [] := by
  rintro opened depth cur _ rfl
  rfl

theorem append (hu : Skipped u) (hv : Skipped v) : Skipped (u ++ v) := by
  intro opened depth cur next takes
  obtain ⟨mid, takes, takes'⟩ := Cursor.takes_append.mp takes
  rw [hu opened depth cur mid takes, hv opened depth mid next takes']

theorem one (plain : c ∉ ['(', ')', '[', '\\']) : Skipped [c] := by
  intro opened depth cur next takes
  have hr := Cursor.takes_one.mp takes
  simp only [List.mem_cons, List.not_mem_nil, or_false, not_or] at plain
  obtain ⟨opens, closes, bracket, escape⟩ := plain
  rw [findGroupClose]
  split
  · next none => rw [hr] at none; cases none
  · next some =>
    rw [hr] at some
    cases some
    simp only [if_neg opens, if_neg closes, if_neg bracket, if_neg escape]

theorem plain (h : ∀ c ∈ w, c ∉ ['(', ')', '[', '\\']) : Skipped w := by
  induction w with
  | nil => exact nil
  | cons c w ih =>
    obtain ⟨first, rest⟩ := List.forall_mem_cons.mp h
    exact append (one first) (ih rest)

theorem escape : Skipped ['\\', c] := by
  rintro opened depth cur next ⟨mid, hr, takes⟩
  have hr' := Cursor.takes_one.mp takes
  rw [findGroupClose]
  split
  · next none => rw [hr] at none; cases none
  · next some =>
    rw [hr] at some
    cases some
    simp only [Char.reduceEq, if_false, if_true]
    split
    · next none => rw [hr'] at none; cases none
    · next some =>
      rw [hr'] at some
      cases some
      rfl

theorem bracket (unclosed : Unclosed w) : Skipped ('[' :: (w ++ [']'])) := by
  rintro opened depth cur next ⟨mid, hr, takes⟩
  obtain ⟨last, takes, closes⟩ := Cursor.takes_append.mp takes
  have closes := Cursor.takes_one.mp closes
  obtain ⟨leads, moved, _⟩ := Cursor.read_eq_some closes
  rw [findGroupClose]
  split
  · next none => rw [hr] at none; cases none
  · next some =>
    rw [hr] at some
    cases some
    simp only [Char.reduceEq, if_false, if_true]
    obtain ⟨close, hc, pos⟩ := findClassClose_complete cur.pos unclosed takes closes
    have behind := (takes.leads.trans leads).moveTo
    rw [moved, ← pos] at behind
    split
    · next error => rw [hc] at error; cases error
    · next found =>
      rw [hc] at found
      cases found
      split
      · next error => rw [behind] at error; cases error
      · next found =>
        rw [behind] at found
        cases found
        rfl

theorem group (h : Skipped w) : Skipped ('(' :: (w ++ [')'])) := by
  rintro opened depth cur next ⟨mid, hr, takes⟩
  obtain ⟨last, takes, closes⟩ := Cursor.takes_append.mp takes
  rw [findGroupClose_open hr, h opened (depth + 1) mid last takes,
    findGroupClose_close (Cursor.takes_one.mp closes)]

end Skipped

theorem not_special_of_digit (h : c.isDigit = true) : c ∉ ['(', ')', '[', '\\'] := by
  intro special
  simp only [List.mem_cons, List.not_mem_nil, or_false] at special
  rcases special with rfl | rfl | rfl | rfl <;> cases h

theorem Grammar.Numeral.skipped {n : Nat} (h : Numeral w n) : Skipped w :=
  .plain fun c hc => not_special_of_digit (h.digits c hc)

theorem Grammar.Repetition.skipped {rep : Repeat} (h : Repetition w rep) : Skipped w := by
  cases h with
  | once => exact .nil
  | plus | star | option => exact .one (by decide)
  | exactly count =>
    exact (Skipped.one (by decide)).append (count.skipped.append (.one (by decide)))
  | atLeast least =>
    exact (Skipped.one (by decide)).append (least.skipped.append
      ((Skipped.one (by decide)).append (.one (by decide))))
  | between least most _ =>
    exact (Skipped.one (by decide)).append (least.skipped.append
      ((Skipped.one (by decide)).append (most.skipped.append (.one (by decide)))))

theorem Grammar.Symbol.skipped {L : Labelling} {i : Item} (h : Symbol L w i) : Skipped w := by
  cases h with
  | any | lineBegin | lineEnd => exact .one (by decide)
  | escape => exact .escape
  | literal ordinary =>
    refine .one fun special => ordinary ?_
    simp only [List.mem_cons, List.not_mem_nil, or_false] at special
    rcases special with rfl | rfl | rfl | rfl <;> decide

theorem unclosed_caret (negated : Bool) : Unclosed (caret negated ++ w) ↔ Unclosed w := by
  cases negated with
  | true =>
    constructor
    · intro h
      cases h with
      | cons _ _ rest => exact rest
    · exact .cons (by decide) (by decide)
  | false => exact Iff.rfl

theorem Grammar.Single.skipped {L : Labelling} {g : Guard} (h : Single L w g) : Skipped w := by
  cases h with
  | item symbol => exact symbol.skipped
  | charset bracket =>
    obtain ⟨_, unclosed, _, _, _⟩ := bracket
    exact .bracket ((unclosed_caret _).mpr unclosed)

mutual

theorem Grammar.Piece.skipped {L : Labelling} {w : List Char} {t : Term} (h : Piece L w t) :
    Skipped w := by
  match h with
  | .guard single often => exact single.skipped.append often.skipped
  | .group inside _ often => exact (Skipped.group inside.skipped).append often.skipped

theorem Grammar.Row.skipped {L : Labelling} {w : List Char} {ts : List Term} (h : Row L w ts) :
    Skipped w := by
  match h with
  | .last piece _ => exact piece.skipped
  | .cons piece rest _ => exact piece.skipped.append rest.skipped

/-- **What derives branches is looked over**, however many groups are open around it. -/
theorem Grammar.Choice.skipped {L : Labelling} {w : List Char} {bs : List (List Term)}
    (h : Choice L w bs) : Skipped w := by
  match h with
  | .last row => exact row.skipped
  | .cons row others =>
    exact row.skipped.append ((Skipped.one (by decide)).append others.skipped)

end

/-- A bracket with both its ends is taken apart. -/
theorem enclosed_of_closed {last behind : Cursor} {o d : Char} (opens : cur.read = some (o, next))
    (leads : next.Leads last) (closes : last.read = some (d, behind)) :
    ∃ e, enclosed cur last.pos = .ok e ∧ e.inside.ahead = next.upTo last.pos ∧
      e.behind = behind := by
  obtain ⟨leads', moved, _⟩ := Cursor.read_eq_some opens
  obtain ⟨onward, moved', _⟩ := Cursor.read_eq_some closes
  have le := leads.pos
  have inside : cur.start ≤ cur.pos + 1 ∧ cur.pos + 1 ≤ last.pos ∧ last.pos ≤ cur.stop :=
    ⟨Nat.le_succ_of_le cur.start_le_pos, moved ▸ le,
      (leads'.trans leads).stop ▸ last.pos_le_stop⟩
  have hw : cur.window (cur.pos + 1) last.pos = .ok ⟨cur.text, cur.pos + 1, last.pos, cur.pos + 1,
      Nat.le_refl _, inside.2.1, Nat.le_trans inside.2.2 cur.stop_le_size⟩ := dif_pos inside
  have hm := (leads'.trans (leads.trans onward)).moveTo
  rw [moved'] at hm
  unfold enclosed
  split
  · next error => rw [hw] at error; cases error
  · next found =>
    rw [hw] at found
    cases found
    split
    · next error => rw [hm] at error; cases error
    · next found =>
      rw [hm] at found
      cases found
      exact ⟨_, rfl, by simp only [Cursor.ahead, Cursor.upTo, leads'.text, moved], rfl⟩

/-- The inside of a bracket is what stands before the one that closes. -/
theorem enclosed_ahead {close : Nat} {e : Enclosed cur} (h : enclosed cur close = .ok e) :
    e.inside.ahead = (cur.text.extract (cur.pos + 1) close).toList := by
  unfold enclosed at h
  split at h
  · cases h
  · next inside hw =>
    split at h
    · cases h
    · cases h
      obtain ⟨text, _, stop, pos, _, _⟩ := Cursor.window_eq_ok hw
      rw [Cursor.ahead, Cursor.upTo, text, stop, pos]

theorem enclosed_slice {close : Nat} {e : Enclosed cur} (h : enclosed cur close = .ok e) :
    cur.slice (cur.pos + 1) close = String.ofList e.inside.ahead := by
  rw [enclosed_ahead h]
  rfl

/-- The inside of a bracket is a window further on in the window, and ends where the bracket that
closes stands. -/
theorem enclosed_places {close : Nat} {e : Enclosed cur} (h : enclosed cur close = .ok e) :
    cur.pos < e.inside.pos ∧ e.inside.stop ≤ cur.stop ∧ e.behind.pos = close + 1 := by
  unfold enclosed at h
  split at h
  · cases h
  · next hw =>
    split at h
    · cases h
    · next hm =>
      cases h
      obtain ⟨_, _, stop, pos, _, inside⟩ := Cursor.window_eq_ok hw
      obtain ⟨_, _, _, moved⟩ := Cursor.moveTo_eq_ok hm
      refine ⟨?_, ?_, moved⟩
      · rw [pos]
        exact Nat.lt_succ_self _
      · rw [stop]
        exact inside

/-- A group runs from its parenthesis to another one. -/
theorem enclosedGroup_sound (opens : cur.read = some ('(', next)) {close : Nat}
    {group : Enclosed cur} (h : enclosedGroup cur = .ok (close, group)) :
    cur.Takes ('(' :: (group.inside.ahead ++ [')'])) group.behind ∧
      enclosed cur close = .ok group := by
  unfold enclosedGroup at h
  rw [Cursor.moveTo_of_read opens] at h
  obtain ⟨close', hc, h⟩ := bind_eq_ok.mp h
  obtain ⟨last, behind, leads, closes, rfl⟩ := findGroupClose_sound hc
  obtain ⟨e, he, inside, rfl⟩ := enclosed_of_closed opens leads closes
  rw [he] at h
  cases h
  refine ⟨⟨next, opens, ?_⟩, he⟩
  rw [inside]
  exact Cursor.takes_append.mpr ⟨last, Cursor.takes_upTo leads, Cursor.takes_one.mpr closes⟩

theorem enclosedGroup_complete {behind : Cursor} (takes : cur.Takes ('(' :: (w ++ [')'])) behind)
    (skipped : Skipped w) : ∃ close group, enclosedGroup cur = .ok (close, group) ∧
      group.inside.ahead = w ∧ group.behind = behind := by
  obtain ⟨next, opens, onward⟩ := takes
  obtain ⟨last, takes, one⟩ := Cursor.takes_append.mp onward
  have closes := Cursor.takes_one.mp one
  obtain ⟨e, he, inside, rfl⟩ := enclosed_of_closed opens takes.leads closes
  refine ⟨last.pos, e, ?_, ?_, rfl⟩
  · unfold enclosedGroup
    rw [Cursor.moveTo_of_read opens]
    simp only [skipped cur.pos 0 next last takes, findGroupClose_here closes, ok_bind, he]
    rfl
  · rw [inside, takes.between]

/-- A class runs from its bracket to the first one that is not escaped. -/
theorem enclosedClass_sound (opens : cur.read = some ('[', next)) {close : Nat}
    {cls : Enclosed cur} (h : enclosedClass cur = .ok (close, cls)) :
    cur.Takes ('[' :: (cls.inside.ahead ++ [']'])) cls.behind ∧ Unclosed cls.inside.ahead ∧
      enclosed cur close = .ok cls := by
  unfold enclosedClass at h
  rw [Cursor.moveTo_of_read opens] at h
  obtain ⟨close', hc, h⟩ := bind_eq_ok.mp h
  obtain ⟨w, last, behind, takes, unclosed, closes, pos⟩ := findClassClose_sound hc
  rw [pos] at h
  obtain ⟨e, he, inside, rfl⟩ := enclosed_of_closed opens takes.leads closes
  rw [he] at h
  cases h
  rw [takes.between] at inside
  refine ⟨⟨next, opens, ?_⟩, inside ▸ unclosed, he⟩
  rw [inside]
  exact Cursor.takes_append.mpr ⟨last, takes, Cursor.takes_one.mpr closes⟩

theorem enclosedClass_complete {behind : Cursor} (takes : cur.Takes ('[' :: (w ++ [']'])) behind)
    (unclosed : Unclosed w) : ∃ close cls, enclosedClass cur = .ok (close, cls) ∧
      cls.inside.ahead = w ∧ cls.behind = behind := by
  obtain ⟨next, opens, onward⟩ := takes
  obtain ⟨last, takes, one⟩ := Cursor.takes_append.mp onward
  have closes := Cursor.takes_one.mp one
  obtain ⟨close, hc, pos⟩ := findClassClose_complete cur.pos unclosed takes closes
  obtain ⟨e, he, inside, rfl⟩ := enclosed_of_closed opens takes.leads closes
  refine ⟨last.pos, e, ?_, ?_, rfl⟩
  · unfold enclosedClass
    rw [Cursor.moveTo_of_read opens]
    simp only [hc, ok_bind, pos, he]
    rfl
  · rw [inside, takes.between]

end WholeMatch
