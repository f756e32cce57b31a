import WholeMatch.Cache
import WholeMatch.Proofs.Agreement

namespace WholeMatch

/-- What an entry is found by. -/
def CacheEntry.key (e : CacheEntry) : String × Strategy := (e.pattern, e.strategy)

namespace Cache

def keys (c : Cache) : List (String × Strategy) := c.entries.map CacheEntry.key

/-- The cache after some operations. -/
def run (c : Cache) (ops : List CacheOp) : Cache := ops.foldl (fun c op => (c.perform op).2.1) c

/-- The cache after all operations since it was new. -/
def after (ops : List CacheOp) : Cache := empty.run ops

/-- What the cache answers when it is asked for a pattern. -/
def answer (c : Cache) (pattern : String) (strategy : Strategy) : CacheAnswer :=
  (c.perform (.get pattern strategy)).1

end Cache

/-- The pattern was asked for with success, and nothing was cleared since. -/
def Kept (ops : List CacheOp) (pattern : String) (strategy : Strategy) : Prop :=
  ∃ before later, ops = before ++ .get pattern strategy :: later ∧ .clear ∉ later ∧
    ∃ shared, (Cache.after before).answer pattern strategy = .shared shared

theorem kept_nil {pattern : String} {strategy : Strategy} : ¬Kept [] pattern strategy := by
  rintro ⟨before, later, h, _⟩
  simp at h

theorem kept_concat {ops : List CacheOp} {op : CacheOp} {pattern : String} {strategy : Strategy} :
    Kept (ops ++ [op]) pattern strategy ↔ op ≠ .clear ∧ (Kept ops pattern strategy ∨
      op = .get pattern strategy ∧
        ∃ shared, (Cache.after ops).answer pattern strategy = .shared shared) := by
  constructor
  · rintro ⟨before, later, h, uncleared, succeeded⟩
    rcases List.eq_nil_or_concat' later with rfl | ⟨later, last, rfl⟩
    · obtain ⟨rfl, same⟩ := List.append_inj' h rfl
      cases same
      exact ⟨nofun, .inr ⟨rfl, succeeded⟩⟩
    · rw [← List.cons_append, ← List.append_assoc] at h
      obtain ⟨rfl, same⟩ := List.append_inj' h rfl
      cases same
      rw [List.mem_append, not_or] at uncleared
      have notClear : op ≠ .clear := fun same => uncleared.2 (List.mem_singleton.mpr same.symm)
      exact ⟨notClear, .inl ⟨before, later, rfl, uncleared.1, succeeded⟩⟩
  · rintro ⟨notClear, ⟨before, later, rfl, uncleared, succeeded⟩ | ⟨rfl, succeeded⟩⟩
    · refine ⟨before, later ++ [op], by simp, ?_, succeeded⟩
      rw [List.mem_append, not_or, List.mem_singleton]
      exact ⟨uncleared, notClear.symm⟩
    · exact ⟨ops, [], rfl, List.not_mem_nil, succeeded⟩

/-- Compiling fails as reading does. -/
theorem Regex.compile_error {pattern : String} {e : Failure} (h : Pattern.parse pattern = .error e)
    (strategy : Strategy) : compile pattern strategy = .error e := by
  rw [compile, h]
  rfl

/-- What is compiled has its text and the chosen matcher, and answers as when it was new whatever it
is used for in between. -/
theorem Regex.compile_ok {pattern : String} {p : Pattern} (h : Pattern.parse pattern = .ok p)
    (strategy : Strategy) :
    ∃ n, Nfa.ofPattern p = .ok n ∧
      ((.dfa ∈ strategy.needs → Few n.Composes words) →
        ∃ made, compile pattern strategy = .ok made) ∧
      ∀ regex log, compile pattern strategy = .ok (regex, log) →
        regex.text = pattern ∧ regex.strategy = strategy ∧
        ∀ requests outcomes used, regex.performAll requests = .ok (outcomes, used) →
          (∀ request, used.answer request = regex.answer request) ∧
          (Few n.Composes words →
            ∀ text, ∃ found, regex.Answers text found ∧ used.Answers text found) := by
  obtain ⟨n, d, a, agree⟩ := verdicts_agree (parse_wellRead h) (footprint_le_words h)
  obtain ⟨order, ho, _⟩ := Nfa.reachable_spec a.valid
  refine ⟨n, a.nfa, fun few => ?_, fun regex log compiled => ?_⟩
  · exact ⟨_, (compile_having a ho h strategy).1 fun needed => a.built (few needed)⟩
  · obtain ⟨same, standing⟩ := having_of_compile a ho h compiled
    cases same
    refine ⟨(parse_eq_ok_iff.mp h).2.1, rfl, fun requests outcomes used performed => ?_⟩
    obtain ⟨_, rfl, later⟩ := having_of_performAll a ho standing performed
    refine ⟨fun request => ?_, fun few text => ?_⟩
    · rw [answer_having a ho later, answer_having a ho standing]
    · obtain ⟨found, finds⟩ := agree text.toList.toArray
      exact ⟨found, answers_having a ho few standing finds, answers_having a ho few later finds⟩

namespace Cache

variable {c : Cache} {pattern : String} {strategy : Strategy}

/-- The cache with one more object. -/
def keep (c : Cache) (pattern : String) (strategy : Strategy) (regex : Regex) : Cache :=
  ⟨c.entries ++ [⟨pattern, strategy, c.made, regex⟩], c.made + 1⟩

theorem find?_some {shared : Shared} (h : c.find? pattern strategy = some shared) :
    ∃ e ∈ c.entries, e.key = (pattern, strategy) ∧ e.shared = shared := by
  obtain ⟨e, he, same⟩ := Option.map_eq_some_iff.mp h
  have found := List.find?_some he
  simp only [decide_eq_true_eq] at found
  exact ⟨e, List.mem_of_find?_eq_some he, Prod.ext found.1 found.2, same⟩

theorem find?_none (h : c.find? pattern strategy = none) : (pattern, strategy) ∉ c.keys := by
  intro there
  obtain ⟨e, he, key⟩ := List.mem_map.mp there
  have other := List.find?_eq_none.mp (Option.map_eq_none_iff.mp h) e he
  apply other
  cases key
  simp

/-- **All that asking for a pattern can do**: it is there, it is compiled and kept, or it cannot be
compiled and nothing happens. -/
theorem perform_get (c : Cache) (pattern : String) (strategy : Strategy) :
    (∃ e ∈ c.entries, e.key = (pattern, strategy) ∧
      c.perform (.get pattern strategy) = (.shared e.shared, c, [.cacheHit pattern])) ∨
    (pattern, strategy) ∉ c.keys ∧
      ((∃ regex log, Regex.compile pattern strategy = .ok (regex, log) ∧
        c.perform (.get pattern strategy) =
          (.shared ⟨c.made, regex⟩, c.keep pattern strategy regex, log)) ∨
      ∃ e, Regex.compile pattern strategy = .error e ∧
        c.perform (.get pattern strategy) = (.failed e, c, [])) := by
  cases there : c.find? pattern strategy with
  | some shared =>
    obtain ⟨e, he, key, rfl⟩ := find?_some there
    exact .inl ⟨e, he, key, by simp only [perform, get, there]⟩
  | none =>
    apply Or.inr
    constructor
    · exact find?_none there
    · cases compiled : Regex.compile pattern strategy with
      | ok made =>
        apply Or.inl
        exact ⟨made.1, made.2, rfl, by simp only [perform, get, there, compiled]; rfl⟩
      | error e =>
        apply Or.inr
        exact ⟨e, rfl, by simp only [perform, get, there, compiled]; rfl⟩

@[simp] theorem keys_keep (regex : Regex) :
    (c.keep pattern strategy regex).keys = c.keys ++ [(pattern, strategy)] := by
  simp [keep, keys, CacheEntry.key]

@[simp] theorem keys_clear : c.clear.keys = [] := rfl

/-- An answer that is an object is that of an entry. -/
theorem entry_of_answer {shared : Shared} (h : c.answer pattern strategy = .shared shared) :
    ∃ e ∈ (c.perform (.get pattern strategy)).2.1.entries,
      e.key = (pattern, strategy) ∧ e.shared = shared := by
  unfold answer at h
  obtain ⟨e, he, key, did⟩ | ⟨_, ⟨regex, log, _, did⟩ | ⟨e, _, did⟩⟩ :=
    c.perform_get pattern strategy
  · rw [did] at h ⊢
    cases h
    exact ⟨e, he, key, rfl⟩
  · rw [did] at h ⊢
    cases h
    exact ⟨_, List.mem_append_right _ (List.mem_singleton_self _), rfl, rfl⟩
  · rw [did] at h
    cases h

/-- What is found by a key afterwards was found by it before, or was asked for just now. -/
theorem mem_keys_perform (c : Cache) (op : CacheOp) :
    (pattern, strategy) ∈ (c.perform op).2.1.keys ↔ op ≠ .clear ∧
      ((pattern, strategy) ∈ c.keys ∨ op = .get pattern strategy ∧
        ∃ shared, c.answer pattern strategy = .shared shared) := by
  cases op with
  | clear => simp [perform]
  | size => simp [perform]
  | get pattern' strategy' =>
    by_cases same : CacheOp.get pattern' strategy' = .get pattern strategy
    · cases same
      unfold answer
      obtain ⟨e, he, key, did⟩ | ⟨_, ⟨regex, log, _, did⟩ | ⟨e, _, did⟩⟩ :=
        c.perform_get pattern strategy
      · have there : (pattern, strategy) ∈ c.keys := List.mem_map.mpr ⟨e, he, key⟩
        simp [did, there]
      · simp [did]
      · simp [did]
    · have other : (pattern, strategy) ≠ (pattern', strategy') := by
        rintro ⟨⟩
        exact same rfl
      obtain ⟨e, he, key, did⟩ | ⟨_, ⟨regex, log, _, did⟩ | ⟨e, _, did⟩⟩ :=
        c.perform_get pattern' strategy' <;> simp [did, same, other]

/-- What is in the cache stays until it is cleared. -/
theorem entries_perform (c : Cache) {op : CacheOp} (h : op ≠ .clear) :
    c.entries ⊆ (c.perform op).2.1.entries := by
  intro e he
  cases op with
  | clear => exact absurd rfl h
  | size => exact he
  | get pattern strategy =>
    obtain ⟨_, _, _, did⟩ | ⟨_, ⟨regex, log, _, did⟩ | ⟨_, _, did⟩⟩ :=
      c.perform_get pattern strategy
    · rwa [did]
    · rw [did]
      exact List.mem_append_left _ he
    · rwa [did]

/-- What is in the cache afterwards was in it before, or is the newest object. -/
theorem mem_entries_perform {op : CacheOp} {e : CacheEntry}
    (h : e ∈ (c.perform op).2.1.entries) : e ∈ c.entries ∨ e.shared.object = c.made := by
  cases op with
  | clear => cases h
  | size => exact .inl h
  | get pattern strategy =>
    obtain ⟨_, _, _, did⟩ | ⟨_, ⟨regex, log, _, did⟩ | ⟨_, _, did⟩⟩ :=
      c.perform_get pattern strategy
    · rw [did] at h
      exact .inl h
    · rw [did] at h
      rcases List.mem_append.mp h with h | h
      · exact .inl h
      · rw [List.mem_singleton.mp h]
        exact .inr rfl
    · rw [did] at h
      exact .inl h

theorem made_le_perform (c : Cache) (op : CacheOp) : c.made ≤ (c.perform op).2.1.made := by
  cases op with
  | clear => exact Nat.le_refl _
  | size => exact Nat.le_refl _
  | get pattern strategy =>
    obtain ⟨_, _, _, did⟩ | ⟨_, ⟨regex, log, _, did⟩ | ⟨_, _, did⟩⟩ :=
      c.perform_get pattern strategy
    · rw [did]
    · rw [did]
      exact Nat.le_succ _
    · rw [did]

/-- No key and no object is there twice, and every object was compiled from its key. -/
structure Sound (c : Cache) : Prop where
  keys : c.keys.Nodup
  objects : (c.entries.map (·.shared.object)).Nodup
  made : ∀ e ∈ c.entries, e.shared.object < c.made
  compiled : ∀ e ∈ c.entries, ∃ log,
    Regex.compile e.pattern e.strategy = .ok (e.shared.regex, log)

theorem clear_sound (c : Cache) : c.clear.Sound where
  keys := List.nodup_nil
  objects := List.nodup_nil
  made := nofun
  compiled := nofun

theorem empty_sound : empty.Sound := clear_sound empty

theorem Sound.keep (h : c.Sound) (new : (pattern, strategy) ∉ c.keys) {regex : Regex}
    {log : List Event} (compiled : Regex.compile pattern strategy = .ok (regex, log)) :
    (c.keep pattern strategy regex).Sound where
  keys := by
    rw [keys_keep, ← List.concat_eq_append]
    exact h.keys.concat new
  objects := by
    have older : c.made ∉ c.entries.map (·.shared.object) := by
      intro there
      obtain ⟨e, he, same⟩ := List.mem_map.mp there
      exact absurd same (Nat.ne_of_lt (h.made e he))
    rw [Cache.keep, List.map_append, List.map_singleton, ← List.concat_eq_append]
    exact h.objects.concat older
  made := by
    intro e he
    rcases List.mem_append.mp he with he | he
    · exact Nat.lt_succ_of_lt (h.made e he)
    · rw [List.mem_singleton.mp he]
      exact Nat.lt_succ_self _
  compiled := by
    intro e he
    rcases List.mem_append.mp he with he | he
    · exact h.compiled e he
    · rw [List.mem_singleton.mp he]
      exact ⟨log, compiled⟩

/-- **An operation leaves a sound cache sound.** -/
theorem perform_sound (h : c.Sound) (op : CacheOp) : (c.perform op).2.1.Sound := by
  cases op with
  | clear => exact c.clear_sound
  | size => exact h
  | get pattern strategy =>
    obtain ⟨_, _, _, did⟩ | ⟨new, ⟨regex, log, compiled, did⟩ | ⟨_, _, did⟩⟩ :=
      c.perform_get pattern strategy
    · rwa [did]
    · rw [did]
      exact h.keep new compiled
    · rwa [did]

/-- What cannot be compiled fails, and changes nothing. -/
theorem Sound.get_failed (h : c.Sound) {e : Failure}
    (failing : Regex.compile pattern strategy = .error e) :
    c.perform (.get pattern strategy) = (.failed e, c, []) := by
  obtain ⟨entry, he, key, _⟩ | ⟨_, ⟨regex, log, compiled, _⟩ | ⟨e', failed, did⟩⟩ :=
    c.perform_get pattern strategy
  · obtain ⟨log, compiled⟩ := h.compiled entry he
    cases key
    rw [failing] at compiled
    cases compiled
  · rw [failing] at compiled
    cases compiled
  · rw [failing] at failed
    cases failed
    exact did

/-- What is compiled is found, or kept from now on; either way it is what compiling gives. -/
theorem Sound.get_compiled (h : c.Sound) {regex : Regex} {log : List Event}
    (compiled : Regex.compile pattern strategy = .ok (regex, log)) :
    ∃ object, c.perform (.get pattern strategy) =
      if (pattern, strategy) ∈ c.keys then
        (.shared ⟨object, regex⟩, c, [.cacheHit pattern])
      else (.shared ⟨object, regex⟩, c.keep pattern strategy regex, log) := by
  obtain ⟨entry, he, key, did⟩ | ⟨new, ⟨regex', log', compiled', did⟩ | ⟨e, failed, _⟩⟩ :=
    c.perform_get pattern strategy
  · have there : (pattern, strategy) ∈ c.keys := List.mem_map.mpr ⟨entry, he, key⟩
    obtain ⟨log', compiled'⟩ := h.compiled entry he
    cases key
    rw [compiled] at compiled'
    cases compiled'
    exact ⟨entry.shared.object, by rw [did, if_pos there]⟩
  · rw [compiled] at compiled'
    cases compiled'
    exact ⟨c.made, by rw [did, if_neg new]⟩
  · rw [compiled] at failed
    cases failed

theorem Sound.eq_of_key (h : c.Sound) {e e' : CacheEntry} (he : e ∈ c.entries)
    (he' : e' ∈ c.entries) (same : e.key = e'.key) : e = e' :=
  List.inj_on_of_nodup_map h.keys he he' same

theorem Sound.eq_of_object (h : c.Sound) {e e' : CacheEntry} (he : e ∈ c.entries)
    (he' : e' ∈ c.entries) (same : e.shared.object = e'.shared.object) : e = e' :=
  List.inj_on_of_nodup_map h.objects he he' same

theorem run_concat (c : Cache) (ops : List CacheOp) (op : CacheOp) :
    c.run (ops ++ [op]) = ((c.run ops).perform op).2.1 := by
  rw [run, List.foldl_append]
  rfl

theorem run_append (c : Cache) (ops ops' : List CacheOp) :
    c.run (ops ++ ops') = (c.run ops).run ops' :=
  List.foldl_append

theorem run_sound (h : c.Sound) (ops : List CacheOp) : (c.run ops).Sound := by
  induction ops using List.reverseRecOn with
  | nil => exact h
  | append_singleton ops op ih =>
    rw [run_concat]
    exact perform_sound ih op

theorem after_sound (ops : List CacheOp) : (after ops).Sound := run_sound empty_sound ops

/-- **A cache keeps what its history says.** -/
theorem mem_keys_after (ops : List CacheOp) :
    (pattern, strategy) ∈ (after ops).keys ↔ Kept ops pattern strategy := by
  induction ops using List.reverseRecOn with
  | nil => simp [after, run, empty, keys, kept_nil]
  | append_singleton ops op ih =>
    rw [after, run_concat, mem_keys_perform, kept_concat, ← ih]
    rfl

theorem made_le_run (c : Cache) (ops : List CacheOp) : c.made ≤ (c.run ops).made := by
  induction ops using List.reverseRecOn with
  | nil => exact Nat.le_refl _
  | append_singleton ops op ih =>
    rw [run_concat]
    exact Nat.le_trans ih (made_le_perform _ op)

theorem entries_run (c : Cache) {ops : List CacheOp} (uncleared : .clear ∉ ops) :
    c.entries ⊆ (c.run ops).entries := by
  induction ops using List.reverseRecOn with
  | nil => exact List.Subset.refl _
  | append_singleton ops op ih =>
    rw [List.mem_append, not_or, List.mem_singleton] at uncleared
    intro e he
    rw [run_concat]
    exact entries_perform _ (Ne.symm uncleared.2) (ih uncleared.1 he)

/-- After clearing, all objects in a cache are newer than those from before. -/
theorem made_le_object {ops : List CacheOp} (cleared : .clear ∈ ops) :
    ∀ e ∈ (c.run ops).entries, c.made ≤ e.shared.object := by
  induction ops using List.reverseRecOn with
  | nil => cases cleared
  | append_singleton ops op ih =>
    intro e he
    rw [run_concat] at he
    by_cases now : op = .clear
    · rw [now] at he
      cases he
    · have earlier : .clear ∈ ops := by
        rcases List.mem_append.mp cleared with earlier | last
        · exact earlier
        · exact absurd (List.mem_singleton.mp last).symm now
      rcases mem_entries_perform he with he | newest
      · exact ih earlier e he
      · rw [newest]
        exact made_le_run c ops

/-- **Two answers are one object** just when one key was asked for, and the cache was not cleared in
between. -/
theorem same_object_iff {pattern' : String} {strategy' : Strategy} (ops between : List CacheOp)
    {first second : Shared} (h : (after ops).answer pattern strategy = .shared first)
    (h' : (after (ops ++ .get pattern strategy :: between)).answer pattern' strategy' =
      .shared second) :
    first.object = second.object ↔
      (pattern = pattern' ∧ strategy = strategy') ∧ .clear ∉ between := by
  have here : after (ops ++ .get pattern strategy :: between) =
      (after (ops ++ [.get pattern strategy])).run between := by
    rw [after, after, ← run_append, List.append_assoc]
    rfl
  rw [here] at h'
  obtain ⟨e, he, key, rfl⟩ := entry_of_answer h
  obtain ⟨e', he', key', rfl⟩ := entry_of_answer h'
  have first : (perform (after ops) (.get pattern strategy)).2.1 =
      after (ops ++ [.get pattern strategy]) := (run_concat _ _ _).symm
  rw [first] at he
  rw [← run_concat] at he'
  have sound := after_sound (ops ++ [.get pattern strategy])
  have sound' := run_sound sound (between ++ [.get pattern' strategy'])
  -- The first entry is still there at the end if nothing is cleared.
  have stays : .clear ∉ between → e ∈ ((after (ops ++ [.get pattern strategy])).run
      (between ++ [.get pattern' strategy'])).entries := by
    intro uncleared
    exact entries_run _ (by simpa using uncleared) he
  constructor
  · intro same
    have uncleared : .clear ∉ between := by
      intro cleared
      have newer := made_le_object (List.mem_append_left [.get pattern' strategy'] cleared) e' he'
      have older := sound.made e he
      omega
    have one := sound'.eq_of_object (stays uncleared) he' same
    rw [one, key'] at key
    cases key
    exact ⟨⟨rfl, rfl⟩, uncleared⟩
  · rintro ⟨⟨rfl, rfl⟩, uncleared⟩
    rw [sound'.eq_of_key (stays uncleared) he' (key.trans key'.symm)]

end Cache

/-- **A cache follows its history**, whatever it was asked for. It keeps exactly what was asked for
with success since it was cleared, and counts that. What cannot be read fails as reading it does,
and what cannot be compiled as compiling it does; that changes nothing. What can be compiled is
found, or else compiled and kept; either way the regex is what compiling gives, and goes on
answering so whatever it is used for. Two objects are one if they were asked for alike, with nothing
cleared in between. -/
theorem caching_follows_history (ops : List CacheOp) :
    ((∀ pattern strategy, (pattern, strategy) ∈ (Cache.after ops).keys ↔
        Kept ops pattern strategy) ∧
      (Cache.after ops).keys.Nodup ∧
      (Cache.after ops).perform .size =
        (.size (Cache.after ops).keys.length, Cache.after ops, [])) ∧
    ((∀ pattern strategy e, Pattern.parse pattern = .error e →
        (Cache.after ops).perform (.get pattern strategy) = (.failed e, Cache.after ops, [])) ∧
      ∀ pattern strategy e, Regex.compile pattern strategy = .error e →
        (Cache.after ops).perform (.get pattern strategy) = (.failed e, Cache.after ops, [])) ∧
    (∀ pattern strategy p, Pattern.parse pattern = .ok p →
      ∃ n, Nfa.ofPattern p = .ok n ∧
        ((.dfa ∈ strategy.needs → Few n.Composes words) →
          ∃ made, Regex.compile pattern strategy = .ok made) ∧
        ∀ regex log, Regex.compile pattern strategy = .ok (regex, log) →
          (∃ object, (Cache.after ops).perform (.get pattern strategy) =
            if (pattern, strategy) ∈ (Cache.after ops).keys then
              (.shared ⟨object, regex⟩, Cache.after ops, [.cacheHit pattern])
            else (.shared ⟨object, regex⟩, (Cache.after ops).keep pattern strategy regex, log)) ∧
          regex.text = pattern ∧ regex.strategy = strategy ∧
          ∀ requests outcomes used, regex.performAll requests = .ok (outcomes, used) →
            (∀ request, used.answer request = regex.answer request) ∧
            (Few n.Composes words →
              ∀ text, ∃ found, regex.Answers text found ∧ used.Answers text found)) ∧
    ∀ pattern strategy between pattern' strategy' first second,
      (Cache.after ops).answer pattern strategy = .shared first →
      (Cache.after (ops ++ .get pattern strategy :: between)).answer pattern' strategy' =
        .shared second →
      (first.object = second.object ↔
        (pattern = pattern' ∧ strategy = strategy') ∧ .clear ∉ between) := by
  have sound := Cache.after_sound ops
  refine ⟨⟨fun _ _ => Cache.mem_keys_after ops, sound.keys, ?_⟩, ⟨?_, ?_⟩, ?_, ?_⟩
  · simp [Cache.perform, Cache.size, Cache.keys]
  · intro pattern strategy e unread
    exact sound.get_failed (Regex.compile_error unread strategy)
  · intro pattern strategy e failing
    exact sound.get_failed failing
  · intro pattern strategy p read
    obtain ⟨n, hn, compiles, gives⟩ := Regex.compile_ok read strategy
    exact ⟨n, hn, compiles, fun regex log compiled =>
      ⟨sound.get_compiled compiled, gives regex log compiled⟩⟩
  · intro pattern strategy between pattern' strategy' first second h h'
    exact Cache.same_object_iff ops between h h'

/-- `ab`. -/
def pair : Pattern :=
  ⟨[[.guard (.item ⟨.literal 'a', "a"⟩) .once "ab", .guard (.item ⟨.literal 'b', "b"⟩) .once "b"]],
    "ab"⟩

/-- Something unreadable in between does not matter, and fails; clearing does. -/
theorem caching_follows_history_past_clearing : ∃ first again renewed : Shared,
    (Cache.after []).answer "ab" .backtrack = .shared first ∧
    (Cache.after [.get "ab" .backtrack, .get "(" .nfa]).answer "ab" .backtrack = .shared again ∧
    (Cache.after [.get "ab" .backtrack, .clear]).answer "ab" .backtrack = .shared renewed ∧
    first.object = again.object ∧ first.object ≠ renewed.object ∧
    (Cache.after [.get "ab" .backtrack]).perform (.get "(" .nfa) =
      (.failed (.malformed ⟨.unterminatedGroup, 0⟩), Cache.after [.get "ab" .backtrack], []) := by
  have read : Pattern.parse "ab" = .ok pair := by cbv
  have unread : Pattern.parse "(" = .error (.malformed ⟨.unterminatedGroup, 0⟩) := by cbv
  have answers : ∀ ops, ∃ shared, (Cache.after ops).answer "ab" .backtrack = .shared shared := by
    intro ops
    obtain ⟨_, _, compiles, gives⟩ := (caching_follows_history ops).2.2.1 "ab" .backtrack _ read
    obtain ⟨⟨regex, log⟩, compiled⟩ := compiles (by simp [Strategy.needs])
    obtain ⟨⟨object, did⟩, _⟩ := gives regex log compiled
    refine ⟨⟨object, regex⟩, ?_⟩
    unfold Cache.answer
    rw [did]
    split <;> rfl
  obtain ⟨first, h⟩ := answers []
  obtain ⟨again, h'⟩ := answers [.get "ab" .backtrack, .get "(" .nfa]
  obtain ⟨renewed, h''⟩ := answers [.get "ab" .backtrack, .clear]
  have same := (caching_follows_history []).2.2.2 _ _ [.get "(" .nfa] _ _ _ _ h h'
  have other := (caching_follows_history []).2.2.2 _ _ [.clear] _ _ _ _ h h''
  have failed := (caching_follows_history [.get "ab" .backtrack]).2.1.1 "(" .nfa _ unread
  refine ⟨first, again, renewed, h, h', h'', ?_, ?_, failed⟩
  · apply same.mpr
    simp
  · intro one
    have uncleared := (other.mp one).2
    simp at uncleared

end WholeMatch
