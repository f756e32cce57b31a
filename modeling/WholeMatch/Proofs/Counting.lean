import Mathlib.Data.Nat.Init
import WholeMatch.Proofs.Symbols

namespace WholeMatch

open Grammar

variable {cur next : Cursor} {c : Char} {w : List Char} {n : Nat}

theorem le_ofDigitChars (w : List Char) (value : Nat) : value ≤ Nat.ofDigitChars 10 w value := by
  induction w generalizing value with
  | nil => exact Nat.le_refl value
  | cons c w ih =>
    rw [Nat.ofDigitChars_cons]
    exact Nat.le_trans (by omega) (ih _)

/-- Digits are read for what they add to a number, which never grows past the limit. -/
theorem readDigits_sound {opened value : Nat} {count : Reading (cur.remaining + 1) Nat}
    (small : value ≤ repeatLimit) (h : readDigits opened value cur = .ok count) :
    ∃ w, cur.Takes w count.rest ∧ (∀ c ∈ w, c.isDigit = true) ∧
      Nat.ofDigitChars 10 w value = count.value ∧ count.value ≤ repeatLimit := by
  fun_induction readDigits opened value cur with
  | case1 =>
    cases h
    exact ⟨[], rfl, by simp, rfl, small⟩
  | case2 value cur c next hr _ digit grown small' =>
    rename_i ih
    obtain ⟨count, hc, h⟩ := bind_eq_ok.mp h
    cases h
    obtain ⟨w, takes, digits, adds, bounded⟩ := ih small' hc
    refine ⟨c :: w, ⟨next, hr, takes⟩, List.forall_mem_cons.mpr ⟨digit, digits⟩, ?_, bounded⟩
    rw [Nat.ofDigitChars_cons, Nat.mul_comm]
    exact adds
  | case3 => cases h
  | case4 =>
    cases h
    exact ⟨[], rfl, by simp, rfl, small⟩

theorem readDigits_complete (opened : Nat) (digits : ∀ c ∈ w, c.isDigit = true)
    (last : ∀ c, next.peek = some c → c.isDigit = false) :
    ∀ {cur : Cursor} {value : Nat}, cur.Takes w next → Nat.ofDigitChars 10 w value ≤ repeatLimit →
      Yields (readDigits opened value cur) (Nat.ofDigitChars 10 w value) next := by
  induction w with
  | nil =>
    intro cur value takes _
    obtain rfl : next = cur := takes
    rw [readDigits]
    split
    · exact ⟨_, rfl, rfl, rfl⟩
    · next hr =>
      simp only [last _ (Cursor.peek_of_read hr), Bool.false_eq_true, if_false]
      exact ⟨_, rfl, rfl, rfl⟩
  | cons d w ih =>
    intro cur value takes bounded
    obtain ⟨digit, digits⟩ := List.forall_mem_cons.mp digits
    obtain ⟨mid, hr, takes⟩ := takes
    rw [Nat.ofDigitChars_cons, Nat.mul_comm] at bounded ⊢
    obtain ⟨r, hd, value', rest⟩ := ih digits takes bounded
    have small := Nat.le_trans (le_ofDigitChars w _) bounded
    rw [readDigits]
    split
    · next none => rw [hr] at none; cases none
    · next some =>
      rw [hr] at some
      cases some
      simp only [if_pos digit, if_pos small, hd, ok_bind]
      exact ⟨_, rfl, value', rest⟩

theorem readCount_sound {count : Reading (cur.remaining + 1) Nat} (h : readCount cur = .ok count) :
    ∃ w, cur.Takes w count.rest ∧ Numeral w count.value := by
  obtain ⟨count', hd, h⟩ := bind_eq_ok.mp h
  split at h
  · cases h
  · next moved =>
    cases h
    obtain ⟨w, takes, digits, adds, bounded⟩ := readDigits_sound (Nat.zero_le _) hd
    refine ⟨w, takes, ?_, digits, adds, bounded⟩
    rintro rfl
    exact moved (congrArg Cursor.pos takes)

theorem readCount_complete (takes : cur.Takes w next) (h : Numeral w n)
    (last : ∀ c, next.peek = some c → c.isDigit = false) : Yields (readCount cur) n next := by
  obtain ⟨nonempty, digits, rfl, bounded⟩ := h
  obtain ⟨count, hd, value, rfl⟩ := readDigits_complete cur.pos digits last takes bounded
  have moved : count.rest.pos ≠ cur.pos := by
    have := takes.pos_eq
    have := List.length_pos_iff.mpr nonempty
    omega
  refine ⟨count, ?_, value, rfl⟩
  rw [readCount, hd, ok_bind, if_neg moved]
  rfl

theorem readBounds_sound {opened : Nat} {bounds : Reading (cur.remaining + 1) Repeat}
    (h : readBounds opened cur = .ok bounds) :
    ∃ w, cur.Takes w bounds.rest ∧ Repetition ('{' :: w) bounds.value := by
  unfold readBounds at h
  obtain ⟨least, hl, h⟩ := bind_eq_ok.mp h
  obtain ⟨w, takes, numeral⟩ := readCount_sound hl
  simp only at h
  split at h
  · cases h
  · next c next hr =>
    split at h
    · next closes =>
      cases h
      exact ⟨w ++ ['}'], Cursor.takes_append.mpr ⟨_, takes, closes ▸ Cursor.takes_one.mpr hr⟩,
        .exactly numeral⟩
    · split at h
      · next comma =>
        subst comma
        split at h
        · next rest hr' =>
          cases h
          exact ⟨w ++ [',', '}'], Cursor.takes_append.mpr ⟨_, takes, next, hr, rest, hr', rfl⟩,
            .atLeast numeral⟩
        · obtain ⟨most, hm, h⟩ := bind_eq_ok.mp h
          obtain ⟨v, takes', numeral'⟩ := readCount_sound hm
          split at h
          · next rest hr' =>
            split at h
            · cases h
            · next ordered =>
              cases h
              exact ⟨w ++ ',' :: (v ++ ['}']), Cursor.takes_append.mpr ⟨_, takes, next, hr,
                Cursor.takes_append.mpr ⟨_, takes', Cursor.takes_one.mpr hr'⟩⟩,
                .between numeral numeral' (Nat.le_of_not_lt ordered)⟩
          · cases h
      · cases h

theorem readBounds_complete (opened : Nat) {rep : Repeat} (takes : cur.Takes w next)
    (h : Repetition ('{' :: w) rep) : Yields (readBounds opened cur) rep next := by
  unfold readBounds
  cases h with
  | exactly count =>
    obtain ⟨mid, takes, closes⟩ := Cursor.takes_append.mp takes
    have closes := Cursor.takes_one.mp closes
    obtain ⟨least, hl, rfl, rfl⟩ :=
      readCount_complete takes count (Cursor.forall_peek_of_read closes (by decide))
    rw [hl, ok_bind]
    split
    · next none => rw [closes] at none; cases none
    · next some =>
      rw [closes] at some
      cases some
      exact ⟨_, rfl, rfl, rfl⟩
  | atLeast count =>
    obtain ⟨mid, takes, after, comma, closes⟩ := Cursor.takes_append.mp takes
    have closes := Cursor.takes_one.mp closes
    obtain ⟨least, hl, rfl, rfl⟩ :=
      readCount_complete takes count (Cursor.forall_peek_of_read comma (by decide))
    rw [hl, ok_bind]
    split
    · next none => rw [comma] at none; cases none
    · next some =>
      rw [comma] at some
      cases some
      simp only [Char.reduceEq, if_false, if_true]
      split
      · next some =>
        rw [closes] at some
        cases some
        exact ⟨_, rfl, rfl, rfl⟩
      · next other => exact absurd closes (other _)
  | between count count' ordered =>
    obtain ⟨mid, takes, after, comma, takes'⟩ := Cursor.takes_append.mp takes
    obtain ⟨mid', takes', closes⟩ := Cursor.takes_append.mp takes'
    have closes := Cursor.takes_one.mp closes
    obtain ⟨least, hl, rfl, rfl⟩ :=
      readCount_complete takes count (Cursor.forall_peek_of_read comma (by decide))
    obtain ⟨most, hm, rfl, rfl⟩ :=
      readCount_complete takes' count' (Cursor.forall_peek_of_read closes (by decide))
    rw [hl, ok_bind]
    split
    · next none => rw [comma] at none; cases none
    · next some =>
      rw [comma] at some
      cases some
      simp only [Char.reduceEq, if_false, if_true]
      split
      · next first =>
        obtain ⟨d, v, rfl⟩ := List.exists_cons_of_ne_nil count'.nonempty
        obtain ⟨_, hd, _⟩ := takes'
        rw [first] at hd
        cases hd
        exact absurd (count'.digits '}' (List.mem_cons_self ..)) (by decide)
      · rw [hm, ok_bind]
        split
        · next some =>
          rw [closes] at some
          cases some
          rw [if_neg (Nat.not_lt.mpr ordered)]
          exact ⟨_, rfl, rfl, rfl⟩
        · next other => exact absurd closes (other _)

theorem readRepeat_sound {rep : Reading (cur.remaining + 1) Repeat} (h : readRepeat cur = .ok rep) :
    ∃ w, cur.Takes w rep.rest ∧ Repetition w rep.value := by
  unfold readRepeat at h
  split at h
  · cases h
    exact ⟨[], rfl, .once⟩
  · next hr =>
    simp only at h
    split at h
    · cases h
      exact ⟨['+'], Cursor.takes_one.mpr hr, .plus⟩
    · cases h
      exact ⟨['*'], Cursor.takes_one.mpr hr, .star⟩
    · cases h
      exact ⟨['?'], Cursor.takes_one.mpr hr, .option⟩
    · obtain ⟨bounds, hb, h⟩ := bind_eq_ok.mp h
      cases h
      obtain ⟨w, takes, derives⟩ := readBounds_sound hb
      exact ⟨'{' :: w, ⟨_, hr, takes⟩, derives⟩
    · cases h
      exact ⟨[], rfl, .once⟩

/-- The characters that begin a repetition. -/
def repeats : List Char := ['+', '*', '?', '{']

theorem readRepeat_braced {rep : Repeat} {mid : Cursor} (hr : cur.read = some ('{', mid))
    (takes : mid.Takes w next) (h : Repetition ('{' :: w) rep) :
    Yields (readRepeat cur) rep next := by
  obtain ⟨bounds, hb, rfl, rfl⟩ := readBounds_complete cur.pos takes h
  unfold readRepeat
  split
  · next none => rw [hr] at none; cases none
  · next some =>
    rw [hr] at some
    cases some
    simp only [hb, ok_bind]
    exact ⟨_, rfl, rfl, rfl⟩

theorem readRepeat_complete {rep : Repeat} (takes : cur.Takes w next) (h : Repetition w rep)
    (last : ∀ c, next.peek = some c → c ∉ repeats) : Yields (readRepeat cur) rep next := by
  cases h with
  | once =>
    obtain rfl : next = cur := takes
    unfold readRepeat
    split
    · exact ⟨_, rfl, rfl, rfl⟩
    · next hr =>
      have free := last _ (Cursor.peek_of_read hr)
      simp only
      split
      case h_5 => exact ⟨_, rfl, rfl, rfl⟩
      all_goals exact absurd free (by decide)
  | plus | star | option =>
    have hr := Cursor.takes_one.mp takes
    unfold readRepeat
    split
    · next none => rw [hr] at none; cases none
    · next some =>
      rw [hr] at some
      cases some
      exact ⟨_, rfl, rfl, rfl⟩
  | exactly count =>
    obtain ⟨mid, hr, takes⟩ := takes
    exact readRepeat_braced hr takes (.exactly count)
  | atLeast count =>
    obtain ⟨mid, hr, takes⟩ := takes
    exact readRepeat_braced hr takes (.atLeast count)
  | between least most ordered =>
    obtain ⟨mid, hr, takes⟩ := takes
    exact readRepeat_braced hr takes (.between least most ordered)

end WholeMatch
