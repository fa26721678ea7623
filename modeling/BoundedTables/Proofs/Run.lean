/-!
# Runs

Operations performed one after the other on a state. `run_simulates` is the induction that every
refinement rests on: when two systems answer each operation alike and stay related, they answer
every sequence of operations alike and end related.
-/

namespace BoundedTables

variable {σ τ ι ρ γ : Type}

/-- Perform operations in order and collect their answers. -/
def run (step : σ → ι → ρ × σ) : σ → List ι → List ρ × σ
  | s, [] => ([], s)
  | s, op :: ops =>
      let (answer, next) := step s op
      let (answers, final) := run step next ops
      (answer :: answers, final)

/-- Two systems that answer every operation alike and stay related answer every run alike. -/
theorem run_simulates {step : σ → ι → ρ × σ} {ideal : τ → ι → ρ × τ} {R : σ → τ → Prop}
    (hstep : ∀ s t op, R s t → (step s op).1 = (ideal t op).1 ∧ R (step s op).2 (ideal t op).2)
    {s : σ} {t : τ} (h : R s t) (ops : List ι) :
    (run step s ops).1 = (run ideal t ops).1 ∧ R (run step s ops).2 (run ideal t ops).2 := by
  induction ops generalizing s t with
  | nil => exact ⟨rfl, h⟩
  | cons op ops ih =>
      obtain ⟨hanswer, hnext⟩ := hstep s t op h
      obtain ⟨hanswers, hfinal⟩ := ih hnext
      exact ⟨by simp only [run, hanswer, hanswers], hfinal⟩

/-- What every step keeps holds after any run. -/
theorem run_keeps {step : σ → ι → ρ × σ} {P : σ → Prop} (hstep : ∀ s op, P s → P (step s op).2)
    {s : σ} (h : P s) (ops : List ι) : P (run step s ops).2 := by
  induction ops generalizing s with
  | nil => exact h
  | cons op ops ih => exact ih (hstep s op h)

/-! ## Steps that may fail -/

/-- Perform operations in order while each of them succeeds, and collect their answers. -/
def run? (step : σ → ι → Option (ρ × σ)) : σ → List ι → Option (List ρ × σ)
  | s, [] => some ([], s)
  | s, op :: ops => do
      let (answer, next) ← step s op
      let (answers, final) ← run? step next ops
      pure (answer :: answers, final)

/-- A run succeeds when its first step and the rest of it do. -/
theorem run?_cons {step : σ → ι → Option (ρ × σ)} {s final : σ} {op : ι} {ops : List ι}
    {answers : List ρ} : run? step s (op :: ops) = some (answers, final) ↔
      ∃ answer next rest, step s op = some (answer, next) ∧
        run? step next ops = some (rest, final) ∧ answers = answer :: rest := by
  constructor
  · intro h
    obtain ⟨⟨answer, next⟩, hstep, h⟩ := Option.bind_eq_some_iff.mp h
    obtain ⟨⟨rest, last⟩, hrest, h⟩ := Option.bind_eq_some_iff.mp h
    cases h
    exact ⟨answer, next, rest, hstep, hrest, rfl⟩
  · rintro ⟨answer, next, rest, hstep, hrest, rfl⟩
    refine Option.bind_eq_some_iff.mpr ⟨(answer, next), hstep, ?_⟩
    exact Option.bind_eq_some_iff.mpr ⟨(rest, final), hrest, rfl⟩

/-- A run goes on where another one has ended. -/
theorem run?_append {step : σ → ι → Option (ρ × σ)} {s middle final : σ} {ops ops' : List ι}
    {answers answers' : List ρ} (h : run? step s ops = some (answers, middle))
    (h' : run? step middle ops' = some (answers', final)) :
    run? step s (ops ++ ops') = some (answers ++ answers', final) := by
  induction ops generalizing s answers with
  | nil =>
      cases h
      exact h'
  | cons op ops ih =>
      obtain ⟨answer, next, rest, hfirst, hrest, rfl⟩ := run?_cons.mp h
      exact run?_cons.mpr ⟨answer, next, rest ++ answers', hfirst, ih hrest, rfl⟩

/-- What every successful step keeps holds after any successful run. -/
theorem run?_keeps {step : σ → ι → Option (ρ × σ)} {P : σ → Prop}
    (hstep : ∀ s op answer next, P s → step s op = some (answer, next) → P next)
    {s final : σ} {ops : List ι} {answers : List ρ} (h : P s)
    (hrun : run? step s ops = some (answers, final)) : P final := by
  induction ops generalizing s answers with
  | nil =>
      cases hrun
      exact h
  | cons op ops ih =>
      obtain ⟨answer, next, rest, hfirst, hrest, rfl⟩ := run?_cons.mp hrun
      exact ih (hstep s op answer next h hfirst) hrest

/-- Steps that succeed and keep what they need make every run succeed. -/
theorem run?_isSome {step : σ → ι → Option (ρ × σ)} {P : σ → Prop}
    (hstep : ∀ s op, P s → ∃ answer next, step s op = some (answer, next) ∧ P next)
    {s : σ} (h : P s) (ops : List ι) : (run? step s ops).isSome := by
  induction ops generalizing s with
  | nil => rfl
  | cons op ops ih =>
      obtain ⟨answer, next, hfirst, hnext⟩ := hstep s op h
      obtain ⟨⟨rest, final⟩, hrest⟩ := Option.isSome_iff_exists.mp (ih hnext)
      exact Option.isSome_iff_exists.mpr
        ⟨_, run?_cons.mpr ⟨answer, next, rest, hfirst, hrest, rfl⟩⟩

/-! ## Chronicles -/

/-- What a run leaves of a record that takes note of every operation, of its answer, and of the
states before and after it. -/
def chronicle (step : σ → ι → Option (ρ × σ)) (note : σ → ι → ρ → σ → γ → γ) : σ → γ → List ι → γ
  | _, g, [] => g
  | s, g, op :: ops =>
      match step s op with
      | none => g
      | some (answer, next) => chronicle step note next (note s op answer next g) ops

/-- What every successful step keeps of a state and of the record holds after any successful run. -/
theorem run?_keeps_chronicle {step : σ → ι → Option (ρ × σ)} {note : σ → ι → ρ → σ → γ → γ}
    {P : σ → γ → Prop}
    (hstep : ∀ s g op answer next, P s g → step s op = some (answer, next) →
      P next (note s op answer next g))
    {s final : σ} {g : γ} {ops : List ι} {answers : List ρ} (h : P s g)
    (hrun : run? step s ops = some (answers, final)) :
    P final (chronicle step note s g ops) := by
  induction ops generalizing s g answers with
  | nil =>
      cases hrun
      exact h
  | cons op ops ih =>
      obtain ⟨answer, next, rest, hfirst, hrest, rfl⟩ := run?_cons.mp hrun
      rw [chronicle, hfirst]
      exact ih (hstep s g op answer next h hfirst) hrest

/-! ## Simulation -/

/-- A system whose successful steps answer like those of another, and stay related to them,
answers every successful run alike. -/
theorem run?_simulates {step : σ → ι → Option (ρ × σ)} {ideal : τ → ι → ρ × τ} {R : σ → τ → Prop}
    (hstep : ∀ s t op answer next, R s t → step s op = some (answer, next) →
      answer = (ideal t op).1 ∧ R next (ideal t op).2)
    {s final : σ} {t : τ} {ops : List ι} {answers : List ρ} (h : R s t)
    (hrun : run? step s ops = some (answers, final)) :
    answers = (run ideal t ops).1 ∧ R final (run ideal t ops).2 := by
  induction ops generalizing s t answers with
  | nil =>
      cases hrun
      exact ⟨rfl, h⟩
  | cons op ops ih =>
      obtain ⟨answer, next, rest, hfirst, hrest, rfl⟩ := run?_cons.mp hrun
      obtain ⟨rfl, hnext⟩ := hstep s t op answer next h hfirst
      obtain ⟨rfl, hfinal⟩ := ih hnext hrest
      exact ⟨rfl, hfinal⟩

end BoundedTables
