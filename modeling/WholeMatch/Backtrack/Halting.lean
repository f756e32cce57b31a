import WholeMatch.Backtrack.Machine

namespace WholeMatch

namespace Backtrack

/-- One step of the machine leads from `c` to `d`. -/
def Steps (c d : Config) : Prop := step c = .ok (.next d)

/-- No run of the machine from `c` goes on for ever. -/
def Halts (c : Config) : Prop := Acc (fun d c => Steps c d) c

theorem Halts.of_steps {c : Config} (h : ∀ d, Steps c d → Halts d) : Halts c := ⟨c, h⟩

/-- A step has one outcome. -/
theorem Halts.of_step {c d : Config} (h : step c = .ok (.next d)) (hd : Halts d) : Halts c :=
  .of_steps fun e he => by
    have : d = e := by simpa [Steps, h] using he
    exact this ▸ hd

theorem Halts.of_stuck {c : Config} (h : ∀ d, step c ≠ .ok (.next d)) : Halts c :=
  .of_steps fun d hd => absurd hd (h d)

/-- The machine halts on the continuation, from whatever cursor, as soon as it halts on the frames
below. -/
def Safe (cont : List Goal) : Prop :=
  ∀ cur stack, Halts (.failed stack) → Halts (.search cur cont stack)

theorem safe_nil : Safe [] := by
  intro cur stack hs
  cases he : cur.isEof
  · exact .of_step (by simp [step, he]) hs
  · exact .of_stuck (by simp [step, he])

/-- A goal is safe in front of a continuation when what it is executed to halts. -/
theorem safe_cons {goal : Goal} {cont : List Goal}
    (h : ∀ cur stack, Halts (.failed stack) →
      ∀ d, execute goal cur cont stack = .ok d → Halts d) :
    Safe (goal :: cont) := by
  intro cur stack hs
  refine .of_steps fun d hd => ?_
  obtain ⟨e, he, hd⟩ := bind_eq_ok.mp hd
  cases hd
  exact h cur stack hs d he

theorem halts_resume {cur : Cursor} {cont : List Goal} {stack : List Frame}
    (h : Safe cont) (hs : Halts (.failed stack)) :
    Halts (.failed (.resume cur cont :: stack)) :=
  .of_step rfl (h cur stack hs)

theorem halts_resumes {cur : Cursor} {conts : List (List Goal)} {stack : List Frame}
    (h : ∀ cont ∈ conts, Safe cont) (hs : Halts (.failed stack)) :
    Halts (.failed (conts.map (.resume cur ·) ++ stack)) := by
  induction conts with
  | nil => exact hs
  | cons cont conts ih =>
    exact halts_resume (h cont (by simp)) (ih fun c hc => h c (by simp [hc]))

theorem halts_shrink {rest : List Term} {runs : List Cursor} {cont : List Goal}
    {stack : List Frame} (h : Safe (.chain rest :: cont)) (hs : Halts (.failed stack)) :
    Halts (.failed (.shrink rest runs cont :: stack)) := by
  induction runs with
  | nil => exact .of_step rfl hs
  | cons cur runs ih =>
    refine .of_step rfl (h cur _ ?_)
    split
    · exact hs
    · exact ih

theorem safe_guard {g : Guard} {rep : Repeat} {label : String} {rest : List Term}
    {cont : List Goal} (h : Safe (.chain rest :: cont)) :
    Safe (.chain (.guard g rep label :: rest) :: cont) := by
  refine safe_cons fun cur stack hs d hd => ?_
  obtain ⟨found, _, hd⟩ := bind_eq_ok.mp hd
  cases found with
  | none => cases hd; exact hs
  | some run =>
    cases hd
    refine h _ _ ?_
    split
    · exact hs
    · exact halts_shrink h hs

/-- A repeated group is safe where its body keeps every continuation safe. Whatever it leads to, it
comes again with one iteration more, of which it cannot count more than there are words. -/
theorem safe_again {body : List Branch}
    (hbody : ∀ {cont}, Safe cont → Safe (.branches body :: cont))
    {rep : Repeat} {rest : List Term} {cont : List Goal} (h : Safe (.chain rest :: cont))
    (room : Nat) :
    ∀ {count}, words - count = room → Safe (.again body rep rest count :: cont) := by
  induction room using Nat.strongRecOn with
  | ind room ih =>
    intro count hr
    refine safe_cons fun cur stack hs d hd => ?_
    simp only [execute] at hd
    split at hd
    · cases hd
      refine hbody (safe_cons fun cur stack hs d hd => ?_) _ _ ?_
      · simp only [execute] at hd
        split at hd
        · cases hd; exact hs
        · split at hd
          · next fits =>
            cases hd
            exact ih _ (by omega) rfl cur stack hs
          · cases hd
      · split
        · exact halts_resume h hs
        · exact hs
    · split at hd
      · cases hd; exact hs
      · cases hd; exact h cur stack hs

theorem safe_chain {ts : List Term} {cont : List Goal}
    (hts : ∀ t ∈ ts, ∀ {rest}, Safe (.chain rest :: cont) → Safe (.chain (t :: rest) :: cont))
    (h : Safe cont) : Safe (.chain ts :: cont) := by
  induction ts with
  | nil =>
    refine safe_cons fun cur stack hs d hd => ?_
    cases hd
    exact h cur stack hs
  | cons t ts ih => exact hts t (by simp) (ih fun t ht => hts t (by simp [ht]))

theorem safe_branches {bs : List Branch} {cont : List Goal}
    (hbs : ∀ b ∈ bs, Safe (.chain b :: cont)) : Safe (.branches bs :: cont) := by
  refine safe_cons fun cur stack hs d hd => ?_
  cases bs with
  | nil => cases hd; exact hs
  | cons b bs =>
    cases hd
    refine hbs b (by simp) _ _ ?_
    have all : ∀ later ∈ bs.map fun b => Goal.chain b :: cont, Safe later := by
      simpa using fun b hb => hbs b (by simp [hb])
    simpa [Function.comp_def] using halts_resumes all hs

mutual

theorem safe_term : ∀ (t : Term) {rest : List Term} {cont : List Goal},
    Safe (.chain rest :: cont) → Safe (.chain (t :: rest) :: cont)
  | .guard _ _ _, _, _, h => safe_guard h
  | .group body inner rep label, rest, cont, h => by
    refine safe_cons fun cur stack hs d hd => ?_
    cases hd
    exact safe_again (fun hc => safe_branches (safe_all body hc)) h _ rfl cur stack hs

theorem safe_terms : ∀ (ts : List Term), ∀ t ∈ ts, ∀ {rest : List Term} {cont : List Goal},
    Safe (.chain rest :: cont) → Safe (.chain (t :: rest) :: cont)
  | [], t, ht => by simp at ht
  | t :: ts, u, hu => by
    intro h
    rcases List.mem_cons.mp hu with hu | hu
    · rw [hu]; exact safe_term t h
    · exact safe_terms ts u hu h

theorem safe_all : ∀ (bs : List (List Term)) {cont : List Goal}, Safe cont →
    ∀ b ∈ bs, Safe (.chain b :: cont)
  | [], _, _ => by simp
  | b :: bs, cont, h => by
    intro c hc
    rcases List.mem_cons.mp hc with hc | hc
    · rw [hc]; exact safe_chain (fun t ht => safe_terms b t ht) h
    · exact safe_all bs h c hc

end

/-- **The machine halts** on every pattern and every text, however groups are nested and whatever
they match in place: no iteration goes uncounted. -/
theorem halts_initial (p : Pattern) (text : Array Char) : Halts (initial p text) := by
  refine safe_branches (safe_all p.branches safe_nil) _ [] ?_
  exact .of_stuck (by simp [step])

end Backtrack

end WholeMatch
