import Mathlib
import WholeMatch.Proofs.Displacing
import WholeMatch.Proofs.Locating

namespace WholeMatch

open Grammar

variable {cur next last : Cursor} {c : Char} {u v w : List Char} {opened depth n : Nat}

/-- These characters close `n` groups more than they open, whatever is open around them, and are
looked over. -/
def Closes (n : Nat) (w : List Char) : Prop :=
  ∀ opened depth cur next, Cursor.Takes w cur next →
    findGroupClose opened (depth + n) cur = findGroupClose opened depth next

namespace Closes

theorem skip (hu : Skipped u) (hv : Closes n v) : Closes n (u ++ v) := by
  intro opened depth cur next takes
  obtain ⟨mid, takes, takes'⟩ := Cursor.takes_append.mp takes
  rw [hu opened (depth + n) cur mid takes, hv opened depth mid next takes']

theorem close (h : Closes n w) : Closes (n + 1) (')' :: w) := by
  rintro opened depth cur next ⟨mid, hr, takes⟩
  rw [← Nat.add_assoc, findGroupClose_close hr, h opened depth mid next takes]

theorem open' (h : Closes (n + 1) w) : Closes n ('(' :: w) := by
  rintro opened depth cur next ⟨mid, hr, takes⟩
  rw [findGroupClose_open hr, Nat.add_assoc, h opened depth mid next takes]

end Closes

/-- **A group ends** at a parenthesis that would end it in any other text, too. -/
theorem findGroupClose_closes {close : Nat} (h : findGroupClose opened depth cur = .ok close) :
    ∃ w last next, cur.Takes w last ∧ Closes depth w ∧ last.read = some (')', next) ∧
      close = last.pos := by
  fun_induction findGroupClose opened depth cur with
  | case1 | case5 | case7 | case8 => cases h
  | case2 cur next hr =>
    cases h
    exact ⟨[], cur, next, rfl, Skipped.nil, hr, rfl⟩
  | case3 cur next depth hr _ _ _ ih =>
    obtain ⟨w, last, behind, takes, closes, ends, pos⟩ := ih h
    exact ⟨')' :: w, last, behind, ⟨next, hr, takes⟩, closes.close, ends, pos⟩
  | case4 depth cur next hr _ _ _ _ ih =>
    obtain ⟨w, last, behind, takes, closes, ends, pos⟩ := ih h
    exact ⟨'(' :: w, last, behind, ⟨next, hr, takes⟩, closes.open', ends, pos⟩
  | case6 depth cur next c after hr' _ hr =>
    rename_i ih
    obtain ⟨w, last, behind, takes, closes, ends, pos⟩ := ih h
    exact ⟨'\\' :: c :: w, last, behind, ⟨next, hr, after, hr', takes⟩, closes.skip .escape, ends,
      pos⟩
  | case9 depth cur next close' hc after hm hr =>
    rename_i ih
    obtain ⟨w, last, behind, takes, closes, ends, pos⟩ := ih h
    obtain ⟨u, last', behind', takes', unclosed, ends', pos'⟩ := findClassClose_sound hc
    obtain ⟨leads', moved', _⟩ := Cursor.read_eq_some ends'
    have hm' := (takes'.leads.trans leads').moveTo
    rw [moved', ← pos'] at hm'
    cases hm.symm.trans hm'
    have bracket := Cursor.takes_append.mpr ⟨_, takes', Cursor.takes_one.mpr ends'⟩
    exact ⟨'[' :: (u ++ [']']) ++ w, last, behind,
      Cursor.takes_append.mpr ⟨_, ⟨next, hr, bracket⟩, takes⟩,
      closes.skip (.bracket unclosed), ends, pos⟩
  | case10 depth cur c next hr _ _ _ closing opening =>
    rename_i escape bracket ih
    obtain ⟨w, last, behind, takes, closes, ends, pos⟩ := ih h
    have plain : c ∉ ['(', ')', '[', '\\'] := by
      simp only [List.mem_cons, List.not_mem_nil, or_false, not_or]
      exact ⟨opening, closing, bracket, escape⟩
    exact ⟨c :: w, last, behind, ⟨next, hr, takes⟩, closes.skip (.one plain), ends, pos⟩

theorem Cursor.takes_of_ahead (h : cur.ahead = u ++ v) :
    ∃ mid, cur.Takes u mid ∧ mid.ahead = v := by
  obtain ⟨last, takes, ends⟩ := cur.takes_ahead
  rw [h] at takes
  obtain ⟨mid, takes, takes'⟩ := Cursor.takes_append.mp takes
  exact ⟨mid, takes, takes'.to_end ends⟩

/-- The text in a group is closed by the parenthesis that is put right behind it. -/
def ClosedBehind (body : String) : Prop :=
  ∃ inside, (Cursor.ofText ("(" ++ body ++ ")").toList.toArray).moveTo 1 = .ok inside ∧
    findGroupClose 0 0 inside = .ok (body.length + 1)

/-- What is closed behind itself is looked over wherever it stands. -/
theorem ClosedBehind.skipped {body : String} (h : ClosedBehind body) : Skipped body.toList := by
  obtain ⟨inside, hm, hc⟩ := h
  have ahead : (Cursor.ofText ("(" ++ body ++ ")").toList.toArray).ahead =
      '(' :: (body.toList ++ [')']) := by
    rw [Cursor.ahead_ofText]
    simp
  obtain ⟨next, hr, ahead⟩ := Cursor.read_of_ahead ahead
  cases (Cursor.moveTo_of_read hr).symm.trans hm
  obtain ⟨w, last, behind, takes, closes, _, pos⟩ := findGroupClose_closes hc
  have here := takes.ahead_eq
  rw [ahead] at here
  have length : body.toList.length = w.length := by
    have := takes.pos_eq
    have : inside.pos = 0 + 1 := (Cursor.read_eq_some hr).2.1
    rw [String.length_toList]
    omega
  obtain ⟨rfl, _⟩ := List.append_inj here length
  exact closes

/-- Behind a term there is no way on: what comes next fails. -/
def Stuck (last : Cursor) (e : Failure) : Prop :=
  (∃ c, last.peek = some c ∧ c ≠ '|' ∧ c ∉ repeats ∧ readBranches last = .error e) ∨
    ∃ next, last.read = some ('|', next) ∧ readBranches next = .error e

variable {e : Failure}

theorem Stuck.plain (h : Stuck last e) : ∀ c, last.peek = some c → c ∉ repeats := by
  intro c here
  rcases h with ⟨c', here', _, plain, _⟩ | ⟨next, bar, _⟩
  · cases here.symm.trans here'
    exact plain
  · cases here.symm.trans (Cursor.peek_of_read bar)
    decide

theorem readBranches_stuck {t : Term} (first : ReadsTerm cur t last) (behind : Stuck last e) :
    readBranches cur = .error e := by
  obtain ⟨atom, rep, ha, hr, rfl, _⟩ := first
  rw [readBranches, ha, ok_bind, hr, ok_bind]
  simp only
  rcases behind with ⟨c, here, other, _, fails⟩ | ⟨next, bar, fails⟩
  · split
    · next ends => cases here.symm.trans (Cursor.peek_of_eof ends)
    · next bar =>
      cases here.symm.trans (Cursor.peek_of_read bar)
      exact absurd rfl other
    · rw [fails]
      rfl
  · split
    · next ends => cases bar.symm.trans ends
    · next bar' =>
      cases bar.symm.trans bar'
      rw [fails]
      rfl
    · next other here =>
      cases bar.symm.trans here
      exact absurd rfl (other _)

theorem Grammar.Row.stuck {w : List Char} {ts : List Term} (h : Row .own w ts) {cur last : Cursor}
    (takes : cur.Takes w last) (behind : Stuck last e) : readBranches cur = .error e := by
  cases h with
  | last piece _ => exact readBranches_stuck (piece.reads takes behind.plain) behind
  | cons piece rest _ =>
    -- the next term begins with no bar and no sign of a repetition, so the first one ends there
    obtain ⟨mid, term, onward⟩ := Cursor.takes_append.mp takes
    have fails := rest.stuck onward behind
    obtain ⟨c, v, rfl, bar, plain⟩ := rest.begins
    obtain ⟨_, hr, _⟩ := onward
    have here := Cursor.peek_of_read hr
    have first := piece.reads term (Cursor.forall_peek_of_read hr plain)
    exact readBranches_stuck first (.inl ⟨c, here, bar, plain, fails⟩)

/-- **What fails behind branches** fails for the whole. -/
theorem Grammar.Choice.stuck {w : List Char} {bs : List Branch} (h : Choice .own w bs)
    {cur last : Cursor} (takes : cur.Takes w last) (behind : Stuck last e) :
    readBranches cur = .error e := by
  cases h with
  | last row => exact row.stuck takes behind
  | cons row others =>
    obtain ⟨mid, takes, next, bar, takes'⟩ := Cursor.takes_append.mp takes
    exact row.stuck takes (.inr ⟨next, bar, others.stuck takes' behind⟩)

/-- A cursor at the beginning of its window mirrors one over the text of the window. -/
theorem Cursor.mirrors_ahead (h : cur.pos = cur.start) :
    cur.Mirrors cur.pos (ofText cur.ahead.toArray) := by
  obtain ⟨d, hd, mirrors⟩ := cur.exists_mirrors
  have whole : cur.text.extract cur.start cur.stop = cur.ahead.toArray := by
    rw [ahead, upTo, Array.toArray_toList, h]
  rw [whole, h, Nat.sub_self] at hd
  cases (show (ofText cur.ahead.toArray).moveTo 0 = .ok (ofText cur.ahead.toArray) from
    dif_pos ⟨Nat.le_refl 0, Nat.zero_le _⟩).symm.trans hd
  rw [h]
  exact mirrors

theorem enclosed_begins {close : Nat} {group : Enclosed cur}
    (h : enclosed cur close = .ok group) :
    group.inside.pos = cur.pos + 1 ∧ group.inside.start = cur.pos + 1 := by
  unfold enclosed at h
  split at h
  · cases h
  · next hw =>
    split at h
    · cases h
    · cases h
      obtain ⟨_, start, _, pos, _⟩ := Cursor.window_eq_ok hw
      exact ⟨pos, start⟩

/-- **A group fails** as the text in it does. -/
theorem readBranches_group (takes : cur.Takes ('(' :: (w ++ [')'])) next) (skipped : Skipped w)
    (fails : readBranches (Cursor.ofText w.toArray) = .error e) :
    readBranches cur = .error (e.behind (cur.pos + 1)) := by
  obtain ⟨close, group, hg, rfl, rfl⟩ := enclosedGroup_complete takes skipped
  obtain ⟨mid, hr, _⟩ := takes
  obtain ⟨pos, start⟩ := enclosed_begins (enclosedGroup_sound hr hg).2
  have echoes := readBranches_echoes (Cursor.mirrors_ahead (pos.trans start.symm))
  rw [fails, pos] at echoes
  have nested : readBranches group.inside = .error (e.behind (cur.pos + 1)) := by
    generalize readBranches group.inside = x at echoes
    cases echoes
    rfl
  rw [readBranches]
  unfold readAtom
  simp only [Cursor.peek_of_read hr, hg, ok_bind, nested]
  rfl

theorem parse_of_error {source : String}
    (h : readBranches (Cursor.ofText source.toList.toArray) = .error e) :
    Pattern.parse source = .error e := by
  rw [Pattern.parse, h]
  rfl

/-- A text that is turned down for anything but its size is one that cannot be read. -/
theorem readBranches_of_parse {source : String} {m : Malformed}
    (h : Pattern.parse source = .error (.malformed m)) (cause : m.cause ≠ .tooManyStates) :
    readBranches (Cursor.ofText source.toList.toArray) = .error (.malformed m) := by
  rw [Pattern.parse] at h
  cases hb : readBranches (Cursor.ofText source.toList.toArray) with
  | error e =>
    rw [hb] at h
    cases h
    rfl
  | ok bs =>
    rw [hb, ok_bind] at h
    simp only at h
    split at h
    · cases h
      exact absurd rfl cause
    · cases h

/-- **What is wrong in a group is told of the whole text.** Where a text is turned down for anything
but its size, it is turned down in a group that it does not close itself, for the same reason and at
the same character, whatever stands before the group, if that can be read, and whatever stands
behind it. -/
theorem parse_group_error (before body behind : String) (m : Malformed)
    (readable : before = "" ∨ ∃ p, Pattern.parse before = .ok p) (closed : ClosedBehind body)
    (wrong : Pattern.parse body = .error (.malformed m)) (cause : m.cause ≠ .tooManyStates) :
    Pattern.parse (before ++ "(" ++ body ++ ")" ++ behind) =
      .error (.malformed ⟨m.cause, m.offset + before.length + 1⟩) := by
  let whole := Cursor.ofText (before ++ "(" ++ body ++ ")" ++ behind).toList.toArray
  have ahead : whole.ahead =
      before.toList ++ (('(' :: (body.toList ++ [')'])) ++ behind.toList) := by
    rw [Cursor.ahead_ofText]
    simp
  obtain ⟨start, takes, ahead⟩ := Cursor.takes_of_ahead ahead
  obtain ⟨last, takes', _⟩ := Cursor.takes_of_ahead ahead
  have place : start.pos = before.length := by
    rw [takes.pos_eq, String.length_toList]
    exact Nat.zero_add _
  have group := readBranches_group takes' closed.skipped (readBranches_of_parse wrong cause)
  rw [place] at group
  have opens : start.peek = some '(' := by
    obtain ⟨_, hr, _⟩ := takes'
    exact Cursor.peek_of_read hr
  apply parse_of_error
  rcases readable with rfl | ⟨p, hp⟩
  · obtain rfl : start = whole := takes
    exact group
  -- what stands before is derived as a whole, and a parenthesis does not go on with its last term
  · obtain ⟨derived, _⟩ := parse_eq_ok_iff.mp hp
    exact derived.stuck takes (.inl ⟨'(', opens, by decide, by decide, group⟩)

/-- The class holds a parenthesis, and what follows the group could not be read. -/
theorem parse_group_error_in_class :
    ClosedBehind "c([z-a)])" ∧
      Pattern.parse "c([z-a)])" = .error (.malformed ⟨.badRange 'z' 'a', 3⟩) ∧
      Pattern.parse "a|b(c([z-a)]))*)" = .error (.malformed ⟨.badRange 'z' 'a', 7⟩) := by
  have closed : ClosedBehind "c([z-a)])" := ⟨_, rfl, by cbv⟩
  have wrong : Pattern.parse "c([z-a)])" = .error (.malformed ⟨.badRange 'z' 'a', 3⟩) := by cbv
  have read : Pattern.parse "a|b" = .ok
      ⟨[[.guard (.item ⟨.literal 'a', "a"⟩) .once "a"],
        [.guard (.item ⟨.literal 'b', "b"⟩) .once "b"]], "a|b"⟩ := by cbv
  have told := parse_group_error "a|b" _ "*)" _ (.inr ⟨_, read⟩) closed wrong (by decide)
  have text : "a|b" ++ "(" ++ "c([z-a)])" ++ ")" ++ "*)" = "a|b(c([z-a)]))*)" := by decide
  rw [text] at told
  exact ⟨closed, wrong, told⟩

end WholeMatch
