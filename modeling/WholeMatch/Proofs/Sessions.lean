import WholeMatch.Proofs.Drawing
import WholeMatch.Proofs.Estimating
import WholeMatch.Proofs.Verdicts
import WholeMatch.Regex.Session

namespace WholeMatch

/-- The automata of a regex. -/
inductive Stage where
  | nfa
  | dfa
  deriving DecidableEq, Repr

/-- The automata a matcher needs, in the order they are built. -/
def Strategy.needs : Strategy → List Stage
  | backtrack => []
  | nfa => [.nfa]
  | dfa => [.nfa, .dfa]

/-- The automata a request to a regex needs, for which a matcher was chosen. -/
def Request.needs (chosen : Strategy) : Request → List Stage
  | isMatch _ => chosen.needs
  | isMatchWith _ matcher => matcher.needs
  | text | strategy => []
  | nfaSize | nfaDot _ => [.nfa]
  | dfaSize | dfaDot _ => [.nfa, .dfa]

/-- What is needed and was not built before. -/
def missing (built needed : List Stage) : List Stage := needed.filter (· ∉ built)

/-- Composites are found from the other automaton, so that one is built, too. -/
def Closed (built : List Stage) : Prop := .dfa ∈ built → .nfa ∈ built

theorem closed_nil : Closed [] := nofun

theorem Strategy.needs_closed (s : Strategy) {built : List Stage} (h : Closed built) :
    Closed (built ++ s.needs) := by
  cases s with
  | backtrack => simpa [needs] using h
  | nfa => intro _; simp [needs]
  | dfa => intro _; simp [needs]

/-- Every request needs what one of the matchers needs. -/
theorem Request.needs_strategy (chosen : Strategy) (request : Request) :
    ∃ s : Strategy, request.needs chosen = s.needs := by
  cases request with
  | isMatch => exact ⟨chosen, rfl⟩
  | isMatchWith _ s => exact ⟨s, rfl⟩
  | text | strategy => exact ⟨.backtrack, rfl⟩
  | nfaSize | nfaDot => exact ⟨.nfa, rfl⟩
  | dfaSize | dfaDot => exact ⟨.dfa, rfl⟩

/-- Those of both automata that are built, in order. -/
def inOrder (built : List Stage) : List Stage := [.nfa, .dfa].filter (· ∈ built)

theorem inOrder_needs (s : Strategy) : inOrder s.needs = s.needs := by
  cases s <;> rfl

/-- What was built and then what is built now are the automata that are built afterwards. -/
theorem inOrder_missing {built : List Stage} (h : Closed built) (s : Strategy) :
    inOrder built ++ missing built s.needs = inOrder (built ++ s.needs) := by
  unfold Closed at h
  by_cases nfa : Stage.nfa ∈ built
  · by_cases dfa : Stage.dfa ∈ built <;> cases s <;>
      simp [inOrder, missing, Strategy.needs, nfa, dfa]
  · have dfa : Stage.dfa ∉ built := fun hd => nfa (h hd)
    cases s <;> simp [inOrder, missing, Strategy.needs, nfa, dfa]

/-- The composites are never built first. -/
theorem inOrder_initial {built : List Stage} (h : Closed built) :
    inOrder built <+: [.nfa, .dfa] := by
  unfold Closed at h
  by_cases nfa : Stage.nfa ∈ built
  · by_cases dfa : Stage.dfa ∈ built <;> simp [inOrder, nfa, dfa]
  · have dfa : Stage.dfa ∉ built := fun hd => nfa (h hd)
    simp [inOrder, nfa, dfa]

section
variable (p : Pattern) (chosen : Strategy) (n : Nfa) (d : Dfa) (order : List Nat)

/-- What is logged when an automaton is built. -/
def Stage.event : Stage → Event
  | nfa => .builtNfa p.label n.size order.length
  | dfa => .builtDfa p.label d.size

/-- A regex of which some automata are built. -/
def Regex.having (built : List Stage) : Regex :=
  ⟨p, chosen, if .nfa ∈ built then some n else none, if .dfa ∈ built then some d else none⟩

/-- What a matcher says of a text, if it does. -/
def Strategy.verdict (text : String) : Strategy → Except Fault Bool
  | backtrack => p.isMatch text.toList.toArray
  | nfa => n.isMatch text.toList.toArray
  | dfa => (Dfa.ofNfa n).bind (·.isMatch text.toList.toArray)

/-- What is answered to a request, if anything is. -/
def Request.outcome : Request → Except Fault Answer
  | isMatch subject => (chosen.verdict p n subject).map .flag
  | isMatchWith subject matcher => (matcher.verdict p n subject).map .flag
  | text => .ok (.text p.label)
  | strategy => .ok (.strategy chosen)
  | nfaSize => .ok (.size n.size)
  | dfaSize => (Dfa.ofNfa n).map (.size ·.size)
  | nfaDot limit => n.toDot.map (.ofText limit)
  | dfaDot limit => (Dfa.ofNfa n).bind fun d => d.toDot.map (.ofText limit)

end

/-- What a request is answered, whatever is built for it. -/
def Regex.answer (r : Regex) (request : Request) : Except Fault Answer :=
  (r.perform request).map Used.answer

/-- The text and the matcher of a request for a verdict. -/
def Request.asks (chosen : Strategy) : Request → Option (String × Strategy)
  | isMatch subject => some (subject, chosen)
  | isMatchWith subject matcher => some (subject, matcher)
  | text | strategy | nfaSize | dfaSize | nfaDot _ | dfaDot _ => none

/-- Words suffice for a request: for the ids of composites, if it needs them, and for counting
repetitions, if it is backtracked. -/
structure Request.Within (p : Pattern) (n : Nfa) (chosen : Strategy) (request : Request) :
    Prop where
  composites : .dfa ∈ request.needs chosen → Few n.Composes words
  counts : ∀ text, request.asks chosen = some (text, .backtrack) → p.countable text.length = true

/-- The automata that are built can be, and the composites are not the first of them. -/
structure Standing (n : Nfa) (d : Dfa) (built : List Stage) : Prop where
  closed : Closed built
  dfa : .dfa ∈ built → Dfa.ofNfa n = .ok d

section
variable {p : Pattern} {chosen : Strategy} {n : Nfa} {d : Dfa} {order : List Nat}
  {built : List Stage}

theorem standing_nil : Standing n d [] := ⟨closed_nil, nofun⟩

theorem Standing.needs (h : Standing n d built) (s : Strategy)
    (done : .dfa ∈ s.needs → Dfa.ofNfa n = .ok d) : Standing n d (built ++ s.needs) where
  closed := s.needs_closed h.closed
  dfa there := (List.mem_append.mp there).elim h.dfa done

/-- What is answered with the composites is answered once they are built. -/
theorem Automata.built_of_verdict (a : Automata p n d) {text : String} {s : Strategy}
    {found : Bool} (h : s.verdict p n text = .ok found) (needed : .dfa ∈ s.needs) :
    Dfa.ofNfa n = .ok d := by
  cases s with
  | backtrack | nfa => simp [Strategy.needs] at needed
  | dfa =>
    obtain ⟨built, hb, _⟩ := bind_eq_ok.mp h
    rw [hb, a.dfa built hb]

theorem Automata.built_of_outcome (a : Automata p n d) {request : Request} {answer : Answer}
    (h : request.outcome p chosen n = .ok answer) (needed : .dfa ∈ request.needs chosen) :
    Dfa.ofNfa n = .ok d := by
  cases request with
  | isMatch | isMatchWith =>
    obtain ⟨found, hf, _⟩ := map_eq_ok.mp h
    exact a.built_of_verdict hf needed
  | text | strategy | nfaSize | nfaDot => simp [Request.needs] at needed
  | dfaSize =>
    obtain ⟨built, hb, _⟩ := map_eq_ok.mp h
    rw [hb, a.dfa built hb]
  | dfaDot =>
    obtain ⟨built, hb, _⟩ := bind_eq_ok.mp h
    rw [hb, a.dfa built hb]

theorem Automata.standing_of_outcome (a : Automata p n d) {request : Request} {answer : Answer}
    (h : request.outcome p chosen n = .ok answer) (standing : Standing n d built) :
    Standing n d (built ++ request.needs chosen) := by
  obtain ⟨s, hs⟩ := request.needs_strategy chosen
  rw [hs]
  exact standing.needs s fun needed => a.built_of_outcome h (hs ▸ needed)

/-- Within the bounds of words every matcher comes to a verdict. -/
theorem Automata.verdict_total (a : Automata p n d) {text : String} {found : Bool}
    (finds : Finds p n d text.toList.toArray found) {s : Strategy}
    (few : .dfa ∈ s.needs → Few n.Composes words)
    (fits : s = .backtrack → p.countable text.length = true) : s.verdict p n text = .ok found := by
  cases s with
  | backtrack =>
    apply finds.tree_of_countable
    rw [List.size_toArray, String.length_toList]
    exact fits rfl
  | nfa => exact finds.nfa
  | dfa =>
    have enough := few (by simp [Strategy.needs])
    rw [Strategy.verdict, a.built enough]
    exact finds.dfa enough

/-- Within the bounds of words every request is answered. -/
theorem Automata.outcome_total (a : Automata p n d)
    (agree : ∀ text, ∃ found, Finds p n d text found) {request : Request}
    (h : request.Within p n chosen) : ∃ answer, request.outcome p chosen n = .ok answer := by
  cases request with
  | isMatch text =>
    obtain ⟨found, finds⟩ := agree text.toList.toArray
    have fits : chosen = .backtrack → p.countable text.length = true := by
      rintro rfl
      exact h.counts text rfl
    exact ⟨_, map_eq_ok.mpr ⟨_, a.verdict_total finds h.composites fits, rfl⟩⟩
  | isMatchWith text matcher =>
    obtain ⟨found, finds⟩ := agree text.toList.toArray
    have fits : matcher = .backtrack → p.countable text.length = true := by
      rintro rfl
      exact h.counts text rfl
    exact ⟨_, map_eq_ok.mpr ⟨_, a.verdict_total finds h.composites fits, rfl⟩⟩
  | text | strategy | nfaSize => exact ⟨_, rfl⟩
  | dfaSize =>
    have built := a.built (h.composites (by simp [Request.needs]))
    exact ⟨_, map_eq_ok.mpr ⟨_, built, rfl⟩⟩
  | nfaDot limit =>
    obtain ⟨drawing, drawn⟩ := Nfa.toDot_total a.valid
    exact ⟨_, map_eq_ok.mpr ⟨_, drawn, rfl⟩⟩
  | dfaDot limit =>
    have built := a.built (h.composites (by simp [Request.needs]))
    obtain ⟨drawing, drawn⟩ := Dfa.toDot_total (ofNfa_valid built)
    rw [Request.outcome, built]
    exact ⟨_, map_eq_ok.mpr ⟨_, drawn, rfl⟩⟩

namespace Regex

theorem useNfa_having (a : Automata p n d) (ho : n.reachable = .ok order) (built : List Stage) :
    (having p chosen n d built).useNfa = .ok ⟨n, having p chosen n d (built ++ [.nfa]),
      (missing built [.nfa]).map (Stage.event p n d order)⟩ := by
  by_cases there : Stage.nfa ∈ built
  · simp [useNfa, having, missing, there]
  · simp [useNfa, having, missing, there, a.nfa, ok_bind, ho, Stage.event, text, pure, Except.pure]

theorem useDfa_having (a : Automata p n d) (ho : n.reachable = .ok order)
    (h : Standing n d built) :
    (having p chosen n d built).useDfa = (Dfa.ofNfa n).map fun d =>
      ⟨d, having p chosen n d (built ++ [.nfa, .dfa]),
        (missing built [.nfa, .dfa]).map (Stage.event p n d order)⟩ := by
  by_cases there : Stage.dfa ∈ built
  · have nfa := h.closed there
    simp [useDfa, having, missing, there, nfa, h.dfa there, Except.map]
  · have first : (having p chosen n d built).useDfa =
        (do let nfa ← (having p chosen n d built).useNfa
            let dfa ← Dfa.ofNfa nfa.answer
            return ⟨dfa, { nfa.regex with dfa := some dfa },
              nfa.log ++ [.builtDfa p.label dfa.size]⟩) := by
      simp [useDfa, having, there, text]
    rw [first, useNfa_having a ho, ok_bind]
    cases hd : Dfa.ofNfa n with
    | error f => rfl
    | ok built' =>
      obtain rfl := a.dfa built' hd
      by_cases nfa : Stage.nfa ∈ built <;>
        simp [having, missing, there, nfa, ok_bind, Stage.event, pure, Except.pure, Except.map]

theorem isMatchWith_having (a : Automata p n d) (ho : n.reachable = .ok order) (text : String)
    (matcher : Strategy) (h : Standing n d built) :
    (having p chosen n d built).isMatchWith text matcher =
      (matcher.verdict p n text).map fun found =>
        ⟨found, having p chosen n d (built ++ matcher.needs),
          (missing built matcher.needs).map (Stage.event p n d order)⟩ := by
  unfold isMatchWith
  cases matcher with
  | backtrack =>
    have pattern : (having p chosen n d built).pattern = p := rfl
    simp only [pattern, Strategy.needs, List.append_nil, Strategy.verdict]
    cases p.isMatch text.toList.toArray <;> rfl
  | nfa =>
    simp only [useNfa_having a ho, ok_bind, Strategy.verdict]
    cases n.isMatch text.toList.toArray <;> rfl
  | dfa =>
    simp only [useDfa_having a ho h, Strategy.verdict]
    cases hd : Dfa.ofNfa n with
    | error f => rfl
    | ok built' =>
      obtain rfl := a.dfa built' hd
      change (built'.isMatch text.toList.toArray >>= _) =
        (built'.isMatch text.toList.toArray).map _
      cases built'.isMatch text.toList.toArray <;> rfl

/-- **A request is answered alike** whatever automata are built, and builds those it needs that are
missing. -/
theorem perform_having (a : Automata p n d) (ho : n.reachable = .ok order) (request : Request)
    (h : Standing n d built) :
    (having p chosen n d built).perform request =
      (request.outcome p chosen n).map fun answer =>
        ⟨answer, having p chosen n d (built ++ request.needs chosen),
          (missing built (request.needs chosen)).map (Stage.event p n d order)⟩ := by
  cases request with
  | isMatch text =>
    have strategy : (having p chosen n d built).strategy = chosen := rfl
    rw [perform, isMatch, strategy, isMatchWith_having a ho text chosen h, Request.outcome]
    cases chosen.verdict p n text <;> rfl
  | isMatchWith text matcher =>
    rw [perform, isMatchWith_having a ho text matcher h, Request.outcome]
    cases matcher.verdict p n text <;> rfl
  | text | strategy =>
    rw [Request.needs, List.append_nil]
    rfl
  | nfaSize =>
    rw [perform, useNfa_having a ho]
    rfl
  | dfaSize =>
    rw [perform, useDfa_having a ho h, Request.outcome]
    cases hd : Dfa.ofNfa n with
    | error f => rfl
    | ok built' => rw [a.dfa built' hd]; rfl
  | nfaDot limit =>
    rw [perform, useNfa_having a ho, ok_bind, Request.outcome]
    cases n.toDot <;> rfl
  | dfaDot limit =>
    rw [perform, useDfa_having a ho h, Request.outcome]
    cases hd : Dfa.ofNfa n with
    | error f => rfl
    | ok built' =>
      obtain rfl := a.dfa built' hd
      change (built'.toDot >>= _) = Except.map _ (built'.toDot.map _)
      cases built'.toDot <;> rfl

/-- Compiling succeeds where what the matcher needs can be built, and nowhere else. -/
theorem compile_having (a : Automata p n d) (ho : n.reachable = .ok order) {source : String}
    (h : Pattern.parse source = .ok p) (chosen : Strategy) :
    ((.dfa ∈ chosen.needs → Dfa.ofNfa n = .ok d) →
      compile source chosen = .ok (having p chosen n d chosen.needs,
        chosen.needs.map (Stage.event p n d order))) ∧
    ∀ made, compile source chosen = .ok made → .dfa ∈ chosen.needs → Dfa.ofNfa n = .ok d := by
  have fresh : (⟨p, chosen, none, none⟩ : Regex) = having p chosen n d [] := rfl
  rw [compile, h, ok_bind, fresh, prepare]
  cases chosen with
  | backtrack => exact ⟨fun _ => rfl, fun _ _ needed => nomatch needed⟩
  | nfa =>
    rw [useNfa_having a ho]
    exact ⟨fun _ => rfl, fun _ _ needed => by simp [Strategy.needs] at needed⟩
  | dfa =>
    rw [useDfa_having a ho standing_nil]
    refine ⟨fun done => ?_, fun made hm _ => ?_⟩
    · rw [done (by simp [Strategy.needs])]
      rfl
    · cases hd : Dfa.ofNfa n with
      | error f => rw [hd] at hm; cases hm
      | ok built => rw [a.dfa built hd]

end Regex

end

/-- A session told without a regex: what is answered depends on the request alone, and what is
logged on which automata the requests before it needed. Where there is no answer it ends. -/
def reference (chosen : Strategy) (event : Stage → Event) (answer : Request → Except Fault Answer) :
    (built : List Stage) → List Request → Except Fault (List (Answer × List Event))
  | _, [] => .ok []
  | built, request :: requests => do
    let answered ← answer request
    let rest ← reference chosen event answer (built ++ request.needs chosen) requests
    return (answered, (missing built (request.needs chosen)).map event) :: rest

section
variable {p : Pattern} {chosen : Strategy} {n : Nfa} {d : Dfa} {order : List Nat}
  {built : List Stage} {event : Stage → Event} {answer : Request → Except Fault Answer}

theorem reference_cons {request : Request} {requests : List Request}
    {outcomes : List (Answer × List Event)} :
    reference chosen event answer built (request :: requests) = .ok outcomes ↔
      ∃ answered rest, answer request = .ok answered ∧
        reference chosen event answer (built ++ request.needs chosen) requests = .ok rest ∧
        outcomes = (answered, (missing built (request.needs chosen)).map event) :: rest := by
  rw [reference]
  constructor
  · intro h
    obtain ⟨answered, ha, h⟩ := bind_eq_ok.mp h
    obtain ⟨rest, hr, h⟩ := bind_eq_ok.mp h
    cases h
    exact ⟨answered, rest, ha, hr, rfl⟩
  · rintro ⟨answered, rest, ha, hr, rfl⟩
    rw [ha, ok_bind, hr]
    rfl

/-- Where every request is answered, the session does not end early. -/
theorem reference_total (requests : List Request) (built : List Stage)
    (h : ∀ request ∈ requests, ∃ a, answer request = .ok a) :
    ∃ outcomes, reference chosen event answer built requests = .ok outcomes := by
  induction requests generalizing built with
  | nil => exact ⟨[], rfl⟩
  | cons request requests ih =>
    rw [List.forall_mem_cons] at h
    obtain ⟨⟨a, ha⟩, others⟩ := h
    obtain ⟨rest, hr⟩ := ih (built ++ request.needs chosen) others
    exact ⟨_, reference_cons.mpr ⟨a, rest, ha, hr, rfl⟩⟩

/-- What is built in a session could be. -/
theorem reference_standing (a : Automata p n d) (requests : List Request) :
    ∀ {built : List Stage} {outcomes : List (Answer × List Event)}, Standing n d built →
    reference chosen event (Request.outcome p chosen n) built requests = .ok outcomes →
    Standing n d (built ++ requests.flatMap (Request.needs chosen)) := by
  induction requests with
  | nil =>
    intro built outcomes standing _
    simpa using standing
  | cons request requests ih =>
    intro built outcomes standing h
    obtain ⟨answered, rest, ha, hr, _⟩ := reference_cons.mp h
    rw [List.flatMap_cons, ← List.append_assoc]
    exact ih (a.standing_of_outcome ha standing) hr

/-- All that is logged, from the beginning on, are the automata that are built at the end. -/
theorem reference_log (requests : List Request) : ∀ {built : List Stage}
    {outcomes : List (Answer × List Event)}, Closed built →
    reference chosen event answer built requests = .ok outcomes →
    (inOrder built).map event ++ outcomes.flatMap (·.2) =
      (inOrder (built ++ requests.flatMap (Request.needs chosen))).map event := by
  induction requests with
  | nil =>
    rintro built outcomes _ h
    cases h
    simp
  | cons request requests ih =>
    intro built outcomes closed h
    obtain ⟨answered, others, _, ho, rfl⟩ := reference_cons.mp h
    obtain ⟨s, hs⟩ := request.needs_strategy chosen
    rw [hs] at ho
    have rest := ih (s.needs_closed closed) ho
    rw [← inOrder_missing closed s, List.map_append, List.append_assoc] at rest
    simp only [List.flatMap_cons, hs]
    rw [rest, List.append_assoc]

/-- **Requests in turn** are answered as by a regex that was just compiled, and log what is
built. -/
theorem Regex.performAll_having (a : Automata p n d) (ho : n.reachable = .ok order)
    (requests : List Request) : ∀ {built : List Stage}, Standing n d built →
      (having p chosen n d built).performAll requests =
        (reference chosen (Stage.event p n d order) (Request.outcome p chosen n) built requests).map
          fun outcomes =>
            (outcomes, having p chosen n d (built ++ requests.flatMap (Request.needs chosen))) := by
  induction requests with
  | nil => intro built _; simp [performAll, reference, Except.map]
  | cons request requests ih =>
    intro built h
    rw [performAll, perform_having a ho request h, reference]
    cases ha : request.outcome p chosen n with
    | error f => rfl
    | ok answered =>
      simp only [Except.map, ok_bind, ih (a.standing_of_outcome ha h)]
      cases reference chosen (Stage.event p n d order) (Request.outcome p chosen n)
          (built ++ request.needs chosen) requests with
      | error f => rfl
      | ok rest => simp [ok_bind, pure, Except.pure]

theorem Regex.answer_having (a : Automata p n d) (ho : n.reachable = .ok order)
    (standing : Standing n d built) (request : Request) :
    (having p chosen n d built).answer request = request.outcome p chosen n := by
  rw [answer, perform_having a ho request standing]
  cases request.outcome p chosen n <;> rfl

/-- All that compiling can give. -/
theorem Regex.having_of_compile (a : Automata p n d) (ho : n.reachable = .ok order)
    {source : String} (h : Pattern.parse source = .ok p) {made : Regex × List Event}
    (hm : compile source chosen = .ok made) :
    made = (having p chosen n d chosen.needs, chosen.needs.map (Stage.event p n d order)) ∧
      Standing n d chosen.needs := by
  obtain ⟨compiled, needed⟩ := compile_having a ho h chosen
  have done := needed made hm
  have standing := standing_nil.needs chosen done
  rw [compiled done] at hm
  cases hm
  exact ⟨rfl, standing⟩

/-- Requests that are all answered leave a regex of which more automata are built. -/
theorem Regex.having_of_performAll (a : Automata p n d) (ho : n.reachable = .ok order)
    {requests : List Request} (standing : Standing n d built)
    {outcomes : List (Answer × List Event)} {r' : Regex}
    (h : (having p chosen n d built).performAll requests = .ok (outcomes, r')) :
    reference chosen (Stage.event p n d order) (Request.outcome p chosen n) built requests =
      .ok outcomes ∧
    r' = having p chosen n d (built ++ requests.flatMap (Request.needs chosen)) ∧
    Standing n d (built ++ requests.flatMap (Request.needs chosen)) := by
  rw [performAll_having a ho requests standing] at h
  obtain ⟨outcomes', told, same⟩ := map_eq_ok.mp h
  cases same
  exact ⟨told, rfl, reference_standing a requests standing told⟩

end

/-- Of the choices made on the way to compiling, the last one counts. -/
theorem RegexBuilder.build_choices (source : String) (choices : List Strategy) :
    (choices.foldl choose (ofPattern source)).build =
      Regex.compile source (choices.getLastD .standard) := by
  suffices ∀ b : RegexBuilder, (choices.foldl choose b).build =
      Regex.compile b.pattern (choices.getLastD b.strategy) from this (ofPattern source)
  induction choices with
  | nil => exact fun b => rfl
  | cons s choices ih =>
    intro b
    rw [List.foldl_cons, ih]
    cases choices <;> rfl

/-- **A session does not depend on its history.** A pattern that can be read is compiled, by
whatever choices on the way, unless there are more composites than ids for them and the chosen
matcher needs them. From then on every request is answered as by the regex just compiled, and logs
the automata that it needs and that were not needed before. In all, each automaton is logged once at
most, and the composites never first. -/
theorem sessions_follow_reference {source : String} {p : Pattern}
    (h : Pattern.parse source = .ok p) (chosen : Strategy) :
    ∃ n d order, Nfa.ofPattern p = .ok n ∧ n.reachable = .ok order ∧
      (∀ built, Dfa.ofNfa n = .ok built → built = d) ∧
      (Few n.Composes words → Dfa.ofNfa n = .ok d) ∧
      (∀ choices : List Strategy, choices.getLastD .standard = chosen →
        (choices.foldl RegexBuilder.choose (.ofPattern source)).build =
          Regex.compile source chosen) ∧
      ((.dfa ∈ chosen.needs → Few n.Composes words) →
        ∃ made, Regex.compile source chosen = .ok made) ∧
      ∀ r log, Regex.compile source chosen = .ok (r, log) →
        log = chosen.needs.map (Stage.event p n d order) ∧
        ∀ requests,
          (r.performAll requests).map Prod.fst =
            reference chosen (Stage.event p n d order) r.answer chosen.needs requests ∧
          ((∀ request ∈ requests, request.Within p n chosen) →
            ∃ outcomes r', r.performAll requests = .ok (outcomes, r')) ∧
          ∀ outcomes r', r.performAll requests = .ok (outcomes, r') →
            log ++ outcomes.flatMap (·.2) <+: [.nfa, .dfa].map (Stage.event p n d order) ∧
            r'.pattern = p ∧ r'.strategy = chosen := by
  obtain ⟨n, d, a, agree⟩ := verdicts_agree (parse_wellRead h) (footprint_le_words h)
  obtain ⟨order, ho, _⟩ := Nfa.reachable_spec a.valid
  refine ⟨n, d, order, a.nfa, ho, a.dfa, a.built, ?_, ?_, ?_⟩
  · rintro choices rfl
    exact RegexBuilder.build_choices source choices
  · intro few
    exact ⟨_, (Regex.compile_having a ho h chosen).1 fun needed => a.built (few needed)⟩
  · intro r log compiled
    obtain ⟨same, standing⟩ := Regex.having_of_compile a ho h compiled
    cases same
    have answers : ∀ request, (Regex.having p chosen n d chosen.needs).answer request =
        request.outcome p chosen n := Regex.answer_having a ho standing
    refine ⟨rfl, fun requests => ⟨?_, fun within => ?_, ?_⟩⟩
    · rw [funext answers, Regex.performAll_having a ho requests standing]
      cases reference chosen (Stage.event p n d order) (Request.outcome p chosen n) chosen.needs
        requests <;> rfl
    · obtain ⟨outcomes, told⟩ := reference_total requests chosen.needs fun request there =>
        a.outcome_total agree (within request there)
      exact ⟨outcomes, _, by rw [Regex.performAll_having a ho requests standing, told]; rfl⟩
    · intro outcomes r' performed
      obtain ⟨told, rfl, later⟩ := Regex.having_of_performAll a ho standing performed
      refine ⟨?_, rfl, rfl⟩
      have all := reference_log requests standing.closed told
      rw [inOrder_needs] at all
      rw [all]
      exact (inOrder_initial later.closed).map _

/-- `(a|b)+`. -/
def letters : Pattern :=
  let a : Branch := [.guard (.item ⟨.literal 'a', "a"⟩) .once "a"]
  let b : Branch := [.guard (.item ⟨.literal 'b', "b"⟩) .once "b"]
  ⟨[[.group [a, b] "a|b" ⟨1, none⟩ "(a|b)+"]], "(a|b)+"⟩

/-- Backtracking needs no automaton. What then needs one finds it missing once, even though the
drawing does not fit into its buffer. -/
theorem sessions_follow_reference_lazily : Pattern.parse "(a|b)+" = .ok letters ∧
    ∃ n d order r, Nfa.ofPattern letters = .ok n ∧ Dfa.ofNfa n = .ok d ∧
      Regex.compile "(a|b)+" .backtrack = .ok (r, []) ∧
      ∃ outcomes r', r.performAll [.isMatch "ab", .dfaDot (some 3), .nfaSize,
          .isMatchWith "ab" .dfa] = .ok (outcomes, r') ∧
        outcomes.map (·.2) =
          [[], [Stage.nfa, Stage.dfa].map (Stage.event letters n d order), [], []] := by
  have read : Pattern.parse "(a|b)+" = .ok letters := by cbv
  obtain ⟨n, d, order, hn, _, _, built, _, compiles, sessions⟩ :=
    sessions_follow_reference read .backtrack
  have few : Few n.Composes words := few_of_footprint hn (by decide)
  obtain ⟨⟨r, log⟩, compiled⟩ := compiles (by simp [Strategy.needs])
  obtain ⟨rfl, session⟩ := sessions r log compiled
  obtain ⟨told, answered, _⟩ := session [.isMatch "ab", .dfaDot (some 3), .nfaSize,
    .isMatchWith "ab" .dfa]
  have fits : letters.countable "ab".length = true := by decide
  obtain ⟨outcomes, r', performed⟩ := answered fun request there => by
    refine ⟨fun _ => few, fun text asked => ?_⟩
    simp only [List.mem_cons, List.not_mem_nil, or_false] at there
    obtain rfl | rfl | rfl | rfl := there
    all_goals cases asked
    exact fits
  refine ⟨read, n, d, order, r, hn, built few, compiled, outcomes, r', performed, ?_⟩
  rw [performed] at told
  obtain ⟨_, _, _, drawn, rfl⟩ := reference_cons.mp told.symm
  obtain ⟨_, _, _, sized, rfl⟩ := reference_cons.mp drawn
  obtain ⟨_, _, _, matched, rfl⟩ := reference_cons.mp sized
  obtain ⟨_, _, _, ended, rfl⟩ := reference_cons.mp matched
  cases ended
  rfl

end WholeMatch
