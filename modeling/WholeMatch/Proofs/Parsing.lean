import WholeMatch.Pattern.Parse
import WholeMatch.Proofs.Scanning

namespace WholeMatch

open Grammar

variable {cur next : Cursor} {c : Char} {w : List Char}

/-- What a repetition applies to, and the characters it stands for. -/
inductive Stem : List Char → Atom → Prop
  | guard {w : List Char} {g : Guard} (single : Single .own w g) : Stem w (.guard g)
  | group {w : List Char} {bs : List Branch} (inside : Choice .own w bs) :
      Stem ('(' :: (w ++ [')'])) (.group bs (String.ofList w))

theorem Stem.repeated {q : List Char} {a : Atom} {rep : Repeat} (h : Stem w a)
    (often : Repetition q rep) (label : String) : Piece .own (w ++ q) (a.repeated rep label) := by
  cases h with
  | guard single => exact .guard single often
  | group inside => exact .group inside rfl often

theorem Atom.label_repeated (a : Atom) (rep : Repeat) (label : String) :
    (a.repeated rep label).label = label := by
  cases a <;> rfl

theorem readAtom_sound
    {nested : (inside : Cursor) → inside.remaining < cur.remaining → Except Failure Branches}
    (groups : ∀ inside lt bs, nested inside lt = .ok bs → Choice .own inside.ahead bs.toList)
    {atom : Reading cur.remaining Atom} (h : readAtom cur nested = .ok atom) :
    ∃ w, cur.Takes w atom.rest ∧ Stem w atom.value := by
  unfold readAtom at h
  split at h
  any_goals cases h
  · next opens =>
    obtain ⟨next, hr⟩ := Cursor.read_of_peek opens
    obtain ⟨⟨close, group⟩, hg, h⟩ := bind_eq_ok.mp h
    obtain ⟨bs, hb, h⟩ := bind_eq_ok.mp h
    cases h
    obtain ⟨takes, he⟩ := enclosedGroup_sound hr hg
    simp only [enclosed_slice he]
    exact ⟨_, takes, .group (groups _ _ bs hb)⟩
  · next opens =>
    obtain ⟨next, hr⟩ := Cursor.read_of_peek opens
    obtain ⟨⟨close, cls⟩, hc, h⟩ := bind_eq_ok.mp h
    obtain ⟨charset, hs, h⟩ := bind_eq_ok.mp h
    cases h
    obtain ⟨takes, unclosed, he⟩ := enclosedClass_sound hr hc
    obtain ⟨_, _, pos⟩ := enclosed_places he
    obtain ⟨negated, w, items, ahead, first, inside, nonempty, rfl⟩ := readCharset_iff.mp hs
    rw [ahead] at takes unclosed
    have unclosed := (unclosed_caret negated).mp unclosed
    have named := pos ▸ takes.slice
    exact ⟨_, takes, .guard (.charset (.intro first unclosed inside nonempty named))⟩
  · next c bar close star plus query brace opens bracket here =>
    obtain ⟨item, hi, h⟩ := bind_eq_ok.mp h
    cases h
    have free : c ∉ reserved := by
      simp only [reserved, List.mem_cons, List.not_mem_nil, or_false, not_or]
      exact ⟨opens, close, bracket, bar, star, plus, query, brace⟩
    obtain ⟨next, hr⟩ := Cursor.read_of_peek here
    obtain ⟨w, takes, symbol⟩ := readItem_sound (Cursor.forall_peek_of_read hr free) hi
    exact ⟨w, takes, .guard (.item symbol)⟩

/-- Behind a branch the window ends, or a bar stands before what derives the others. -/
def Behind (last : Cursor) (others : List Branch) : Prop :=
  last.read = none ∧ others = [] ∨
    ∃ next, last.read = some ('|', next) ∧ Choice .own next.ahead others

theorem Behind.choice {last : Cursor} {b : Branch} {others : List Branch}
    (h : Behind last others) (takes : cur.Takes w last) (row : Row .own w b) :
    Choice .own cur.ahead (b :: others) := by
  rcases h with ⟨ends, rfl⟩ | ⟨next, bar, choice⟩
  · rw [takes.to_end ends]
    exact .last row
  · rw [takes.ahead_eq, Cursor.ahead_of_read bar]
    exact .cons row choice

/-- From the middle of a branch, terms are read up to its end, and then the other branches. -/
theorem readBranches_row {bs : Branches} (h : readBranches cur = .ok bs) :
    ∃ w last, cur.Takes w last ∧ Row .own w bs.first ∧ bs.stop = last.pos ∧
      Behind last bs.others := by
  -- on what is left of the window: groups and what stands behind a term have less
  induction hn : cur.remaining using Nat.strongRecOn generalizing cur bs with
  | ind n ih =>
    subst hn
    rw [readBranches] at h
    obtain ⟨atom, ha, h⟩ := bind_eq_ok.mp h
    obtain ⟨rep, hr, h⟩ := bind_eq_ok.mp h
    have lt := atom.lt
    have le := rep.lt
    obtain ⟨u, takes, stem⟩ := readAtom_sound (fun inside lt bs hb => by
      obtain ⟨w, last, takes, row, _, behind⟩ := ih _ lt hb rfl
      exact behind.choice takes row) ha
    obtain ⟨q, takes', often⟩ := readRepeat_sound hr
    have whole := Cursor.takes_append.mpr ⟨_, takes, takes'⟩
    have piece := stem.repeated often
    have named (stop : Nat) := Atom.label_repeated atom.value rep.value (cur.slice cur.pos stop)
    simp only at h
    split at h
    · next ends =>
      cases h
      exact ⟨_, _, whole, .last (piece _) ((named _).trans whole.slice), rfl, .inl ⟨ends, rfl⟩⟩
    · next next bar =>
      have := Cursor.remaining_of_read bar
      obtain ⟨more, hm, h⟩ := bind_eq_ok.mp h
      cases h
      obtain ⟨w, last, takes'', row, _, behind⟩ := ih _ (by omega) hm rfl
      exact ⟨_, _, whole, .last (piece _) ((named _).trans whole.slice), rfl,
        .inr ⟨next, bar, behind.choice takes'' row⟩⟩
    · obtain ⟨more, hm, h⟩ := bind_eq_ok.mp h
      cases h
      obtain ⟨w, last, takes'', row, stop, behind⟩ := ih _ (by omega) hm rfl
      have all := Cursor.takes_append.mpr ⟨_, whole, takes''⟩
      exact ⟨_, last, all, .cons (piece _) row ((named _).trans (stop ▸ all.slice)), stop, behind⟩

/-- **What is read** is what the window derives. -/
theorem readBranches_sound {bs : Branches} (h : readBranches cur = .ok bs) :
    Choice .own cur.ahead bs.toList := by
  obtain ⟨w, last, takes, row, _, behind⟩ := readBranches_row h
  exact behind.choice takes row

section
variable {nested : (inside : Cursor) → inside.remaining < cur.remaining → Except Failure Branches}

theorem symbol_begins {L : Labelling} {i : Item} (h : Symbol L w i) :
    ∃ c v, w = c :: v ∧ c ∉ reserved := by
  cases h with
  | any | lineBegin | lineEnd | escape => exact ⟨_, _, rfl, by decide⟩
  | literal ordinary =>
    refine ⟨_, _, rfl, fun special => ordinary ?_⟩
    simp only [reserved, List.mem_cons, List.not_mem_nil, or_false] at special
    rcases special with rfl | rfl | rfl | rfl | rfl | rfl | rfl | rfl <;> decide

theorem readAtom_item {i : Item} (takes : cur.Takes w next) (h : Symbol .own w i) :
    Yields (readAtom cur nested) (.guard (.item i)) next := by
  obtain ⟨c, v, rfl, free⟩ := symbol_begins h
  obtain ⟨item, hi, rfl, rfl⟩ := readItem_complete takes h
  obtain ⟨mid, hr, _⟩ := takes
  have here := Cursor.peek_of_read hr
  unfold readAtom
  split
  case h_1 none => rw [here] at none; cases none
  case h_10 =>
    rw [hi, ok_bind]
    exact ⟨_, rfl, rfl, rfl⟩
  all_goals
    next other =>
    rw [here] at other
    cases other
    exact absurd (by decide) free

theorem readAtom_charset {s : Charset} (takes : cur.Takes w next) (h : Bracket .own w s) :
    Yields (readAtom cur nested) (.guard (.charset s)) next := by
  cases h with
  | @intro negated w items label first unclosed inside nonempty named =>
    obtain ⟨close, cls, hc, ahead, rfl⟩ := enclosedClass_complete takes
      ((unclosed_caret negated).mpr unclosed)
    have hs : readCharset cur.pos label cls.inside = .ok ⟨negated, items, label⟩ :=
      readCharset_iff.mpr ⟨negated, w, items, ahead, first, inside, nonempty, rfl⟩
    have sliced := takes.slice
    obtain ⟨mid, hr, _⟩ := takes
    obtain ⟨_, _, he⟩ := enclosedClass_sound hr hc
    obtain ⟨_, _, pos⟩ := enclosed_places he
    rw [pos, ← named] at sliced
    unfold readAtom
    simp only [Cursor.peek_of_read hr, hc, ok_bind, sliced, hs]
    exact ⟨_, rfl, rfl, rfl⟩

theorem readAtom_guard {g : Guard} (takes : cur.Takes w next) (h : Single .own w g) :
    Yields (readAtom cur nested) (.guard g) next := by
  cases h with
  | item symbol => exact readAtom_item takes symbol
  | charset bracket => exact readAtom_charset takes bracket

theorem readAtom_group {bs : List Branch} (takes : cur.Takes ('(' :: (w ++ [')'])) next)
    (skipped : Skipped w)
    (inside : ∀ start lt, start.ahead = w → ∃ more, nested start lt = .ok more ∧ more.toList = bs) :
    Yields (readAtom cur nested) (.group bs (String.ofList w)) next := by
  obtain ⟨close, group, hg, ahead, rfl⟩ := enclosedGroup_complete takes skipped
  obtain ⟨mid, hr, _⟩ := takes
  obtain ⟨_, he⟩ := enclosedGroup_sound hr hg
  obtain ⟨more, hn, rfl⟩ := inside group.inside group.inside_lt ahead
  unfold readAtom
  simp only [Cursor.peek_of_read hr, hg, ok_bind, hn, enclosed_slice he, ahead]
  exact ⟨_, rfl, rfl, rfl⟩

end

/-- The term at the cursor is read, and the cursor behind it is reached. -/
def ReadsTerm (cur : Cursor) (t : Term) (next : Cursor) : Prop :=
  ∃ atom rep, readAtom cur (fun inside _ => readBranches inside) = .ok atom ∧
    readRepeat atom.rest = .ok rep ∧ rep.rest = next ∧ t = atom.value.repeated rep.value t.label

section
variable {t : Term} {ts : List Term} {more : Branches}

theorem readBranches_end (first : ReadsTerm cur t next)
    (named : t.label = cur.slice cur.pos next.pos) (ends : next.read = none) :
    readBranches cur = .ok ⟨[t], next.pos, []⟩ := by
  obtain ⟨atom, rep, ha, hr, rfl, same⟩ := first
  rw [readBranches, ha, ok_bind, hr, ok_bind]
  simp only
  split
  · rw [same, named]
    rfl
  · next bar => rw [ends] at bar; cases bar
  · next here => rw [ends] at here; cases here

theorem readBranches_bar {behind : Cursor} (first : ReadsTerm cur t next)
    (named : t.label = cur.slice cur.pos next.pos) (bar : next.read = some ('|', behind))
    (others : readBranches behind = .ok more) :
    readBranches cur = .ok ⟨[t], next.pos, more.toList⟩ := by
  obtain ⟨atom, rep, ha, hr, rfl, same⟩ := first
  rw [readBranches, ha, ok_bind, hr, ok_bind]
  simp only
  split
  · next ends => rw [bar] at ends; cases ends
  · next here =>
    rw [bar] at here
    cases here
    rw [others, ok_bind, same, named]
    rfl
  · next other here =>
    rw [bar] at here
    cases here
    exact absurd rfl (other _)

theorem readBranches_cons (first : ReadsTerm cur t next)
    (named : t.label = cur.slice cur.pos more.stop) (goesOn : next.peek = some c) (plain : c ≠ '|')
    (rest : readBranches next = .ok more) :
    readBranches cur = .ok ⟨t :: more.first, more.stop, more.others⟩ := by
  obtain ⟨atom, rep, ha, hr, rfl, same⟩ := first
  rw [readBranches, ha, ok_bind, hr, ok_bind]
  simp only
  split
  · next ends => rw [Cursor.peek_of_eof ends] at goesOn; cases goesOn
  · next bar =>
    rw [Cursor.peek_of_read bar] at goesOn
    cases goesOn
    exact absurd rfl plain
  · rw [rest, ok_bind, same, named]
    rfl

end

/-- A term begins with no bar, and with nothing that would repeat the term before it. -/
theorem Grammar.Piece.begins {L : Labelling} {t : Term} (h : Piece L w t) :
    ∃ c v, w = c :: v ∧ c ≠ '|' ∧ c ∉ repeats := by
  cases h with
  | guard single _ =>
    cases single with
    | item symbol =>
      obtain ⟨c, v, rfl, free⟩ := symbol_begins symbol
      simp only [reserved, List.mem_cons, List.not_mem_nil, or_false, not_or] at free
      obtain ⟨_, _, _, bar, star, plus, query, brace⟩ := free
      refine ⟨c, _, rfl, bar, ?_⟩
      simp only [repeats, List.mem_cons, List.not_mem_nil, or_false, not_or]
      exact ⟨plus, star, query, brace⟩
    | charset bracket =>
      cases bracket
      exact ⟨'[', _, rfl, by decide, by decide⟩
  | group => exact ⟨'(', _, rfl, by decide, by decide⟩

theorem Grammar.Row.begins {L : Labelling} {ts : List Term} (h : Row L w ts) :
    ∃ c v, w = c :: v ∧ c ≠ '|' ∧ c ∉ repeats := by
  cases h with
  | last piece _ => exact piece.begins
  | cons piece rest _ =>
    obtain ⟨c, v, rfl, begins⟩ := piece.begins
    exact ⟨c, _, rfl, begins⟩

/-- Behind a branch the window ends, or a bar stands before what is read as the others. -/
def ReadBehind (last : Cursor) (others : List Branch) : Prop :=
  last.read = none ∧ others = [] ∨
    ∃ next more, last.read = some ('|', next) ∧ readBranches next = .ok more ∧
      more.toList = others

theorem ReadBehind.plain {last : Cursor} {others : List Branch} (h : ReadBehind last others) :
    ∀ c, last.peek = some c → c ∉ repeats := by
  intro c here
  rcases h with ⟨ends, _⟩ | ⟨next, _, bar, _⟩
  · rw [Cursor.peek_of_eof ends] at here
    cases here
  · rw [Cursor.peek_of_read bar] at here
    cases here
    decide

mutual

theorem Grammar.Piece.reads {w : List Char} {t : Term} (h : Piece .own w t) {cur next : Cursor}
    (takes : cur.Takes w next) (plain : ∀ c, next.peek = some c → c ∉ repeats) :
    ReadsTerm cur t next := by
  match h with
  | .guard single often =>
    obtain ⟨mid, takes, takes'⟩ := Cursor.takes_append.mp takes
    obtain ⟨atom, ha, value, rfl⟩ := readAtom_guard takes single
    obtain ⟨rep, hr, rfl, rest⟩ := readRepeat_complete takes' often plain
    exact ⟨atom, rep, ha, hr, rest, by rw [value]; rfl⟩
  | .group inside named often =>
    obtain ⟨mid, takes, takes'⟩ := Cursor.takes_append.mp takes
    obtain ⟨atom, ha, value, rfl⟩ := readAtom_group takes inside.skipped
      (fun start _ ahead => inside.reads ahead)
    obtain ⟨rep, hr, rfl, rest⟩ := readRepeat_complete takes' often plain
    exact ⟨atom, rep, ha, hr, rest, by rw [value, ← named]; rfl⟩

theorem Grammar.Row.reads {w : List Char} {ts : List Term} (h : Row .own w ts) {cur last : Cursor}
    (takes : cur.Takes w last) {others : List Branch} (behind : ReadBehind last others) :
    readBranches cur = .ok ⟨ts, last.pos, others⟩ := by
  match h with
  | .last piece named =>
    have first := piece.reads takes behind.plain
    have label := named.trans takes.slice.symm
    rcases behind with ⟨ends, rfl⟩ | ⟨next, more, bar, hm, rfl⟩
    · exact readBranches_end first label ends
    · exact readBranches_bar first label bar hm
  | .cons piece rest named =>
    have label := named.trans takes.slice.symm
    obtain ⟨mid, term, onward⟩ := Cursor.takes_append.mp takes
    -- a repetition is read as far as it goes, so what stands behind the term has to be looked at
    have others := rest.reads onward behind
    obtain ⟨c, v, rfl, bar, plain⟩ := rest.begins
    obtain ⟨_, hr, _⟩ := onward
    have first := piece.reads term (Cursor.forall_peek_of_read hr plain)
    exact readBranches_cons first label (Cursor.peek_of_read hr) bar others

/-- **What is derived is read.** -/
theorem Grammar.Choice.reads {w : List Char} {bs : List Branch} (h : Choice .own w bs)
    {cur : Cursor} (ahead : cur.ahead = w) :
    ∃ more, readBranches cur = .ok more ∧ more.toList = bs := by
  obtain ⟨last, takes, ends⟩ := Cursor.takes_ahead cur
  rw [ahead] at takes
  match h with
  | .last row => exact ⟨_, row.reads takes (.inl ⟨ends, rfl⟩), rfl⟩
  | .cons row others =>
    obtain ⟨mid, takes, next, bar, takes'⟩ := Cursor.takes_append.mp takes
    obtain ⟨more, hm, rest⟩ := others.reads (takes'.to_end ends)
    exact ⟨_, row.reads takes (.inr ⟨next, more, bar, hm, rest⟩), rfl⟩

end

theorem Cursor.ahead_ofText (text : Array Char) : (Cursor.ofText text).ahead = text.toList := by
  simp [ahead, upTo, ofText]

/-- A text is read as what it derives when every node is labelled with its own characters. -/
theorem parse_eq_ok_iff {source : String} {p : Pattern} :
    Pattern.parse source = .ok p ↔
      Choice .own source.toList p.branches ∧ p.label = source ∧ p.expansion ≤ expansionLimit := by
  constructor
  · intro h
    obtain ⟨bs, hb, h⟩ := bind_eq_ok.mp h
    simp only at h
    split at h
    · cases h
    · next small =>
      cases h
      have derived := readBranches_sound hb
      rw [Cursor.ahead_ofText] at derived
      exact ⟨derived, rfl, Nat.le_of_not_gt small⟩
  · rintro ⟨derived, rfl, small⟩
    obtain ⟨bs, hb, same⟩ := derived.reads (Cursor.ahead_ofText p.label.toList.toArray)
    rw [Pattern.parse, hb, ok_bind]
    simp only [same]
    rw [if_neg (Nat.not_lt.mpr small)]
    rfl

/-- **A text is read as a tree exactly if it derives the tree**, labels aside, and the tree does not
expand into too much. A derivation takes the text apart without a remainder, so nothing of it is
skipped, and a text that derives nothing is turned down. -/
theorem parse_iff_derives (source : String) (t : Pattern) :
    (∃ p, Pattern.parse source = .ok p ∧ p.bare = t.bare) ↔
      Choice .any source.toList t.branches ∧ t.expansion ≤ expansionLimit := by
  constructor
  · rintro ⟨p, hp, same⟩
    obtain ⟨derived, _, small⟩ := parse_eq_ok_iff.mp hp
    refine ⟨derived.apart (Pattern.mk.inj same).1, ?_⟩
    rwa [← t.expansion_bare, ← same, p.expansion_bare]
  · rintro ⟨derived, small⟩
    obtain ⟨bs, derived', same⟩ := derived.relabel
    have bare : (⟨bs, source⟩ : Pattern).bare = t.bare := by
      simp only [Pattern.bare, same]
    refine ⟨⟨bs, source⟩, parse_eq_ok_iff.mpr ⟨derived', rfl, ?_⟩, bare⟩
    rwa [← Pattern.expansion_bare, bare, t.expansion_bare]

end WholeMatch
