import WholeMatch.Proofs.Parsing

namespace WholeMatch

/-- If the reading fails, then it is the text that is at fault, somewhere from `lo` to `hi`. -/
def Located {α : Type} (lo hi : Nat) (x : Except Failure α) : Prop :=
  ∀ e, x = .error e → ∃ m, e = .malformed m ∧ lo ≤ m.offset ∧ m.offset ≤ hi

namespace Located

variable {α β : Type} {lo hi lo' hi' : Nat} {x : Except Failure α}

theorem ok (a : α) : Located lo hi (.ok a) := nofun

theorem malformed {cause : Cause} {offset : Nat} (low : lo ≤ offset) (high : offset ≤ hi) :
    Located (α := α) lo hi (malformed cause offset) := by
  intro e h
  cases h
  exact ⟨_, rfl, low, high⟩

theorem here {cause : Cause} {offset : Nat} :
    Located (α := α) offset offset (WholeMatch.malformed cause offset) :=
  malformed (Nat.le_refl _) (Nat.le_refl _)

theorem mono (h : Located lo hi x) (low : lo' ≤ lo) (high : hi ≤ hi') : Located lo' hi' x := by
  intro e he
  obtain ⟨m, rfl, above, below⟩ := h e he
  exact ⟨m, rfl, Nat.le_trans low above, Nat.le_trans below high⟩

theorem bind {f : α → Except Failure β} (first : Located lo hi x)
    (rest : ∀ a, x = .ok a → Located lo hi (f a)) : Located lo hi (x >>= f) := by
  intro e he
  cases hx : x with
  | error e' =>
    rw [hx] at he
    cases he
    exact first e hx
  | ok a =>
    rw [hx] at he
    exact rest a hx e he

theorem inWindow {cur : Cursor} (h : Located cur.pos cur.pos x) : Located cur.pos cur.stop x :=
  h.mono (Nat.le_refl _) cur.pos_le_stop

/-- A place in what is left of a window is a place in the window. -/
theorem onward {cur next : Cursor} (h : Located lo' next.stop x) (leads : cur.Leads next)
    (low : lo ≤ lo') : Located lo cur.stop x :=
  h.mono low (Nat.le_of_eq leads.stop)

end Located

variable {cur next : Cursor} {c : Char} {opened depth : Nat}

theorem readEscape_located (inClass : Bool) (opened : Nat) (cur : Cursor) :
    Located opened opened (readEscape inClass opened cur) := by
  unfold readEscape
  split
  · exact .here
  · split
    · exact .ok _
    · exact .here

theorem readItem_located (cur : Cursor) : Located cur.pos cur.pos (readItem cur) := by
  unfold readItem
  split
  · exact .here
  · simp only
    split
    · exact (readEscape_located _ _ _).bind fun _ _ => .ok _
    · exact .ok _

theorem readClassItem_located (hr : cur.read = some (c, next)) :
    Located cur.pos cur.pos (readClassItem hr) := by
  unfold readClassItem
  simp only
  split
  · exact (readEscape_located _ _ _).bind fun _ _ => .ok _
  · split
    · split
      · exact .ok _
      · exact .here
    · exact .ok _

theorem readClassItems_located (cur : Cursor) : Located cur.pos cur.stop (readClassItems cur) := by
  fun_induction readClassItems cur with
  | case1 => exact .ok _
  | case2 cur read hr ih =>
    refine (readClassItem_located hr).inWindow.bind fun item hi => ?_
    obtain ⟨_, takes, _⟩ := readClassItem_sound hr hi
    have leads := takes.leads
    exact ((ih item).onward leads leads.pos).bind fun _ _ => .ok _

theorem readCharset_located (label : String) (before : opened ≤ cur.pos) :
    Located opened cur.stop (readCharset opened label cur) := by
  unfold readCharset
  split
  next negated inside opens =>
  have leads := (caret_takes opens).1.leads
  refine ((readClassItems_located inside).onward leads (Nat.le_trans before leads.pos)).bind
    fun items _ => ?_
  split
  · exact .malformed (Nat.le_refl _) (Nat.le_trans before cur.pos_le_stop)
  · exact .ok _

theorem readDigits_located (opened value : Nat) (cur : Cursor) :
    Located opened opened (readDigits opened value cur) := by
  fun_induction readDigits opened value cur with
  | case1 | case4 => exact .ok _
  | case2 =>
    rename_i ih
    exact ih.bind fun _ _ => .ok _
  | case3 => exact .here

theorem readCount_located (cur : Cursor) : Located cur.pos cur.pos (readCount cur) := by
  refine (readDigits_located _ _ _).bind fun _ _ => ?_
  split
  · exact .here
  · exact .ok _

theorem readBounds_located (before : opened ≤ cur.pos) :
    Located opened cur.stop (readBounds opened cur) := by
  have inside := cur.pos_le_stop
  refine ((readCount_located cur).mono before inside).bind fun least hl => ?_
  obtain ⟨_, takes, _⟩ := readCount_sound hl
  have leads := takes.leads
  have := leads.pos
  have := leads.stop
  have := least.rest.pos_le_stop
  simp only
  split
  · exact .malformed (Nat.le_refl _) (by omega)
  · next c next hr =>
    have onward := (Cursor.read_eq_some hr).1
    have := onward.pos
    have := onward.stop
    have := next.pos_le_stop
    split
    · exact .ok _
    · split
      · split
        · exact .ok _
        · refine ((readCount_located next).mono (by omega) (by omega)).bind fun most _ => ?_
          split
          · split
            · exact .malformed (Nat.le_refl _) (by omega)
            · exact .ok _
          · exact .malformed (Nat.le_refl _) (by omega)
      · exact .malformed (by omega) (by omega)

theorem readRepeat_located (cur : Cursor) : Located cur.pos cur.stop (readRepeat cur) := by
  unfold readRepeat
  split
  · exact .ok _
  · next hr =>
    have leads := (Cursor.read_eq_some hr).1
    simp only
    split
    case h_4 =>
      exact ((readBounds_located leads.pos).onward leads (Nat.le_refl _)).bind fun _ _ => .ok _
    all_goals exact .ok _

theorem findClassClose_located (opened : Nat) (cur : Cursor) :
    Located opened opened (findClassClose opened cur) := by
  fun_induction findClassClose opened cur with
  | case1 | case3 => exact .here
  | case2 => exact .ok _
  | case4 | case5 =>
    rename_i ih
    exact ih.bind fun _ _ => .ok _

/-- Behind the end of a class there is a place to go on from. -/
theorem moveTo_behind_class {close : {close : Nat // cur.pos ≤ close}}
    (h : findClassClose opened cur = .ok close) :
    ∃ behind, cur.moveTo (close.1 + 1) = .ok behind := by
  obtain ⟨w, last, behind, takes, _, closes, pos⟩ := findClassClose_sound h
  obtain ⟨leads, moved, _⟩ := Cursor.read_eq_some closes
  rw [pos, ← moved]
  exact ⟨behind, (takes.leads.trans leads).moveTo⟩

theorem findGroupClose_located (depth : Nat) (before : opened ≤ cur.pos) :
    Located opened cur.stop (findGroupClose opened depth cur) := by
  fun_induction findGroupClose opened depth cur with
  | case1 | case5 => exact .malformed (Nat.le_refl _) (Nat.le_trans before (Cursor.pos_le_stop _))
  | case2 => exact .ok _
  | case3 cur next depth hr | case4 depth cur next hr | case10 depth cur c next hr =>
    rename_i ih
    have leads := (Cursor.read_eq_some hr).1
    exact (ih (Nat.le_trans before leads.pos)).onward leads (Nat.le_refl _)
  | case6 depth cur next c after hr' _ hr =>
    rename_i ih
    have leads := (Cursor.read_eq_some hr).1.trans (Cursor.read_eq_some hr').1
    exact (ih (Nat.le_trans before leads.pos)).onward leads (Nat.le_refl _)
  | case7 depth cur next e hc =>
    intro e he
    cases he
    exact ((findClassClose_located cur.pos next).mono before cur.pos_le_stop) e hc
  | case8 depth cur next close hc f hm =>
    -- the class ends inside the window, so the move behind it is not refused
    obtain ⟨behind, moves⟩ := moveTo_behind_class hc
    rw [moves] at hm
    cases hm
  | case9 depth cur next close _ after hm hr =>
    rename_i ih
    have leads := (Cursor.read_eq_some hr).1.trans
      (Cursor.leads_of_moveTo hm (Nat.le_succ_of_le close.2))
    exact (ih (Nat.le_trans before leads.pos)).onward leads (Nat.le_refl _)

theorem enclosedGroup_located (opens : cur.read = some ('(', next)) :
    Located cur.pos cur.stop (enclosedGroup cur) := by
  have leads := (Cursor.read_eq_some opens).1
  unfold enclosedGroup
  rw [Cursor.moveTo_of_read opens]
  refine ((findGroupClose_located 0 leads.pos).onward leads (Nat.le_refl _)).bind
    fun close hc => ?_
  obtain ⟨last, behind, leads', closes, rfl⟩ := findGroupClose_sound hc
  obtain ⟨e, he, _⟩ := enclosed_of_closed opens leads' closes
  rw [he]
  exact .ok _

theorem enclosedClass_located (opens : cur.read = some ('[', next)) :
    Located cur.pos cur.stop (enclosedClass cur) := by
  unfold enclosedClass
  rw [Cursor.moveTo_of_read opens]
  refine (findClassClose_located cur.pos next).inWindow.bind fun close hc => ?_
  obtain ⟨w, last, behind, takes, _, closes, pos⟩ := findClassClose_sound hc
  obtain ⟨e, he, _⟩ := enclosed_of_closed opens takes.leads closes
  rw [pos, he]
  exact .ok _

theorem readAtom_located
    {nested : (inside : Cursor) → inside.remaining < cur.remaining → Except Failure Branches}
    (groups : ∀ inside lt, Located inside.pos inside.stop (nested inside lt)) :
    Located cur.pos cur.stop (readAtom cur nested) := by
  unfold readAtom
  split
  case h_8 opens =>
    obtain ⟨next, hr⟩ := Cursor.read_of_peek opens
    refine (enclosedGroup_located hr).bind fun (close, group) hg => ?_
    obtain ⟨after, within, _⟩ := enclosed_places (enclosedGroup_sound hr hg).2
    exact ((groups group.inside group.inside_lt).mono (Nat.le_of_lt after) within).bind
      fun _ _ => .ok _
  case h_9 opens =>
    obtain ⟨next, hr⟩ := Cursor.read_of_peek opens
    refine (enclosedClass_located hr).bind fun (close, cls) hc => ?_
    obtain ⟨after, within, _⟩ := enclosed_places (enclosedClass_sound hr hc).2.2
    exact ((readCharset_located _ (Nat.le_of_lt after)).mono (Nat.le_refl _) within).bind
      fun _ _ => .ok _
  case h_10 =>
    exact (readItem_located cur).inWindow.bind fun _ _ => .ok _
  all_goals exact .malformed (Nat.le_refl _) cur.pos_le_stop

/-- **Reading a window** fails inside the window only. -/
theorem readBranches_located (cur : Cursor) : Located cur.pos cur.stop (readBranches cur) := by
  induction hn : cur.remaining using Nat.strongRecOn generalizing cur with
  | ind n ih =>
    subst hn
    rw [readBranches]
    refine (readAtom_located fun inside lt => ih _ lt inside rfl).bind fun atom ha => ?_
    obtain ⟨_, takes, _⟩ := readAtom_sound (fun inside _ bs hb => readBranches_sound hb) ha
    have behindAtom := takes.leads
    refine ((readRepeat_located atom.rest).onward behindAtom behindAtom.pos).bind fun rep hr => ?_
    obtain ⟨_, takes', _⟩ := readRepeat_sound hr
    have behindTerm := behindAtom.trans takes'.leads
    have lt := atom.lt
    have le := rep.lt
    simp only
    split
    · exact .ok _
    · next next bar =>
      have leads := behindTerm.trans (Cursor.read_eq_some bar).1
      have := Cursor.remaining_of_read bar
      exact ((ih _ (by omega) next rfl).onward leads leads.pos).bind fun _ _ => .ok _
    · exact ((ih _ (by omega) rep.rest rfl).onward behindTerm behindTerm.pos).bind
        fun _ _ => .ok _

/-- **Reading a text gives a pattern, or a place in the text.** No operation is refused on the way,
neither inside groups and classes nor in the search for their ends. -/
theorem parse_answers (source : String) :
    (∃ p, Pattern.parse source = .ok p) ∨
      ∃ m, Pattern.parse source = .error (.malformed m) ∧ m.offset ≤ source.length := by
  have located : Located 0 source.length (Pattern.parse source) := by
    have whole := readBranches_located (Cursor.ofText source.toList.toArray)
    refine (whole.mono (Nat.zero_le _) (Nat.le_of_eq source.length_toList)).bind fun bs _ => ?_
    simp only
    split
    · exact .malformed (Nat.le_refl _) (Nat.zero_le _)
    · exact .ok _
  cases h : Pattern.parse source with
  | ok p => exact .inl ⟨p, rfl⟩
  | error e =>
    obtain ⟨m, rfl, _, inside⟩ := located e h
    exact .inr ⟨m, rfl, inside⟩

end WholeMatch
