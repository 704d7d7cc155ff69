/-! Steps on a part of a state, as steps on the whole. -/
namespace TreeWalk

variable {ε ε' σ τ α β : Type}

/-- The state that a step leaves, whether it succeeds or fails. -/
def stateOf : EStateM.Result ε σ α → σ
  | .ok _ s => s
  | .error _ s => s

@[simp] theorem stateOf_ok (a : α) (s : σ) : stateOf (.ok a s : EStateM.Result ε σ α) = s := rfl

@[simp] theorem stateOf_error (e : ε) (s : σ) : stateOf (.error e s : EStateM.Result ε σ α) = s :=
  rfl

/-- What a step comes to, whatever state it leaves. -/
def outcomeOf : EStateM.Result ε σ α → Except ε α
  | .ok a _ => .ok a
  | .error e _ => .error e

@[simp] theorem outcomeOf_ok (a : α) (s : σ) :
    outcomeOf (.ok a s : EStateM.Result ε σ α) = .ok a := rfl

@[simp] theorem outcomeOf_error (e : ε) (s : σ) :
    outcomeOf (.error e s : EStateM.Result ε σ α) = .error e := rfl

/-- The same outcome with another state. -/
def onState (f : σ → τ) : EStateM.Result ε σ α → EStateM.Result ε τ α
  | .ok a s => .ok a (f s)
  | .error e s => .error e (f s)

@[simp] theorem onState_ok (f : σ → τ) (a : α) (s : σ) :
    onState f (.ok a s : EStateM.Result ε σ α) = .ok a (f s) := rfl

@[simp] theorem onState_error (f : σ → τ) (e : ε) (s : σ) :
    onState f (.error e s : EStateM.Result ε σ α) = .error e (f s) := rfl

@[simp] theorem stateOf_onState (f : σ → τ) (r : EStateM.Result ε σ α) :
    stateOf (onState f r) = f (stateOf r) := by
  cases r <;> rfl

theorem bind_eq_of_ok {step : EStateM ε σ α} {s s₁ : σ} {a : α} (h : step s = .ok a s₁)
    (next : α → EStateM ε σ β) : (step >>= next) s = next a s₁ := by
  simp only [bind, EStateM.bind, h]

theorem bind_eq_of_error {step : EStateM ε σ α} {s s₁ : σ} {e : ε} (h : step s = .error e s₁)
    (next : α → EStateM ε σ β) : (step >>= next) s = .error e s₁ := by
  simp only [bind, EStateM.bind, h]

/-- Runs a step on one part of a state. Its error becomes one of the whole, and what it changed is
kept either way. -/
def zoom (get : σ → τ) (set : σ → τ → σ) (wrap : ε → ε') (step : EStateM ε τ α) :
    EStateM ε' σ α := fun s =>
  match step (get s) with
  | .ok a t => .ok a (set s t)
  | .error e t => .error (wrap e) (set s t)

theorem zoom_of_ok {get : σ → τ} {set : σ → τ → σ} {wrap : ε → ε'} {step : EStateM ε τ α} {s : σ}
    {a : α} {t : τ} (h : step (get s) = .ok a t) : zoom get set wrap step s = .ok a (set s t) := by
  simp [zoom, h]

theorem zoom_of_error {get : σ → τ} {set : σ → τ → σ} {wrap : ε → ε'} {step : EStateM ε τ α}
    {s : σ} {e : ε} {t : τ} (h : step (get s) = .error e t) :
    zoom get set wrap step s = .error (wrap e) (set s t) := by
  simp [zoom, h]

theorem outcomeOf_zoom (get : σ → τ) (set : σ → τ → σ) (wrap : ε → ε') (step : EStateM ε τ α)
    (s : σ) : outcomeOf (zoom get set wrap step s) = (outcomeOf (step (get s))).mapError wrap := by
  simp only [zoom]
  cases step (get s) <;> rfl

theorem stateOf_zoom (get : σ → τ) (set : σ → τ → σ) (wrap : ε → ε') (step : EStateM ε τ α)
    (s : σ) : stateOf (zoom get set wrap step s) = set s (stateOf (step (get s))) := by
  simp only [zoom]
  cases step (get s) <;> rfl

end TreeWalk
