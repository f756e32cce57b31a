import WholeMatch.Fault

namespace WholeMatch

namespace Use

variable {σ τ ο α β : Type}

section
variable (perform : σ → ο → Except Fault (α × σ))

/-- The thing after an operation. -/
def after (s : σ) (op : ο) : σ :=
  match perform s op with
  | .ok (_, t) => t
  | .error _ => s

/-- The answer to each operation, or why it was refused, and the view of the thing after it. -/
def seen (view : σ → β) : List ο → σ → List (Except Fault α × β)
  | [], _ => []
  | op :: ops, s =>
    ((perform s op).map Prod.fst, view (after perform s op)) :: seen view ops (after perform s op)

end

/-- Two operations are answered alike, and leave things that are related, or both are refused for
one reason. -/
inductive Alike (R : σ → τ → Prop) : Except Fault (α × σ) → Except Fault (α × τ) → Prop
  | answered {a : α} {s : σ} {t : τ} (related : R s t) : Alike R (.ok (a, s)) (.ok (a, t))
  | refused {fault : Fault} : Alike R (.error fault) (.error fault)

theorem seen_eq {perform : σ → ο → Except Fault (α × σ)} {perform' : τ → ο → Except Fault (α × τ)}
    {view : σ → β} {view' : τ → β} {R : σ → τ → Prop} (same : ∀ s t, R s t → view s = view' t)
    {ops : List ο} (step : ∀ op ∈ ops, ∀ s t, R s t → Alike R (perform s op) (perform' t op)) :
    ∀ {s t}, R s t → seen perform view ops s = seen perform' view' ops t := by
  induction ops with
  | nil => exact fun _ => rfl
  | cons op ops ih =>
    intro s t related
    obtain ⟨first, rest⟩ := List.forall_mem_cons.mp step
    have outcome := first s t related
    rw [seen, seen, after, after]
    generalize perform s op = x at outcome
    generalize perform' t op = y at outcome
    cases outcome with
    | answered left =>
      simp only [Except.map, same _ _ left, ih rest left]
    | refused =>
      simp only [Except.map, same _ _ related, ih rest related]

/-- What every operation keeps holds after all of them. -/
theorem after_all {perform : σ → ο → Except Fault (α × σ)} {I : σ → Prop}
    (step : ∀ s op, I s → I (after perform s op)) {s : σ} (initial : I s) (ops : List ο) :
    I (ops.foldl (after perform) s) := by
  induction ops generalizing s with
  | nil => exact initial
  | cons op ops ih => exact ih (step s op initial)

end Use

end WholeMatch
