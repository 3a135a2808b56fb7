import LuaData.Failure

/-
  Runs: computations that leave a trail of steps, which is there also when they fail.
-/

namespace LuaData

@[simp] theorem ok_bind {ε α β : Type} (a : α) (f : α → Except ε β) :
    (.ok a : Except ε α) >>= f = f a := rfl

@[simp] theorem error_bind {ε α β : Type} (e : ε) (f : α → Except ε β) :
    (.error e : Except ε α) >>= f = .error e := rfl

/-- The steps that were taken and how it ended. -/
structure Run (σ ρ : Type) where
  trail : List σ
  outcome : Except Failure ρ

namespace Run

variable {σ τ ρ ρ' : Type}

def done (r : ρ) : Run σ ρ := ⟨[], .ok r⟩

def fail (e : Failure) : Run σ ρ := ⟨[], .error e⟩

/-- Takes some steps. -/
def steps (trail : List σ) : Run σ Unit := ⟨trail, .ok ()⟩

/-- Takes one step. -/
def step (s : σ) : Run σ Unit := steps [s]

/-- Goes on with the result of a run, unless that failed. -/
def andThen (x : Run σ ρ) (f : ρ → Run σ ρ') : Run σ ρ' :=
  match x.outcome with
  | .ok r => ⟨x.trail ++ (f r).trail, (f r).outcome⟩
  | .error e => ⟨x.trail, .error e⟩

instance : Monad (Run σ) where
  pure := done
  bind := andThen

def ofExcept (x : Except Failure ρ) : Run σ ρ := ⟨[], x⟩

/-- The same run with its steps seen as others; steps can be left out. -/
def filterSteps (f : σ → Option τ) (x : Run σ ρ) : Run τ ρ :=
  ⟨x.trail.filterMap f, x.outcome⟩

/-! ## Laws -/

@[simp] theorem pure_eq (r : ρ) : (pure r : Run σ ρ) = ⟨[], .ok r⟩ := rfl

theorem bind_ok (trail : List σ) (r : ρ) (f : ρ → Run σ ρ') :
    (⟨trail, .ok r⟩ : Run σ ρ) >>= f = ⟨trail ++ (f r).trail, (f r).outcome⟩ := rfl

theorem bind_error (trail : List σ) (e : Failure) (f : ρ → Run σ ρ') :
    (⟨trail, .error e⟩ : Run σ ρ) >>= f = ⟨trail, .error e⟩ := rfl

theorem ofExcept_ok_bind (r : ρ) (f : ρ → Run σ ρ') :
    (ofExcept (.ok r) : Run σ ρ) >>= f = f r := rfl

theorem ofExcept_error_bind (e : Failure) (f : ρ → Run σ ρ') :
    (ofExcept (.error e) : Run σ ρ) >>= f = fail e := rfl

theorem step_bind (s : σ) (f : Unit → Run σ ρ) :
    step s >>= f = ⟨s :: (f ()).trail, (f ()).outcome⟩ := rfl

/-! ### How a run ends -/

@[simp] theorem outcome_bind (x : Run σ ρ) (f : ρ → Run σ ρ') :
    (x >>= f).outcome = x.outcome >>= fun r => (f r).outcome := by
  obtain ⟨trail, outcome⟩ := x
  cases outcome <;> rfl

@[simp] theorem outcome_steps (trail : List σ) : (steps trail).outcome = .ok () := rfl

@[simp] theorem outcome_step (s : σ) : (step s).outcome = .ok () := rfl

@[simp] theorem outcome_ofExcept (x : Except Failure ρ) :
    (ofExcept x : Run σ ρ).outcome = x := rfl

@[simp] theorem outcome_fail (e : Failure) : (fail e : Run σ ρ).outcome = .error e := rfl

theorem outcome_filterSteps (f : σ → Option τ) (x : Run σ ρ) :
    (x.filterSteps f).outcome = x.outcome := rfl

theorem exists_of_bind_ok {x : Run σ ρ} {f : ρ → Run σ ρ'} {r : ρ'}
    (h : (x >>= f).outcome = .ok r) : ∃ a, x.outcome = .ok a ∧ (f a).outcome = .ok r := by
  obtain ⟨trail, outcome⟩ := x
  cases outcome with
  | error e => cases h
  | ok a => exact ⟨a, rfl, h⟩

/-! ### Steps seen as others -/

theorem filterSteps_mk (f : σ → Option τ) (trail : List σ) (x : Except Failure ρ) :
    (⟨trail, x⟩ : Run σ ρ).filterSteps f = ⟨trail.filterMap f, x⟩ := rfl

theorem filterSteps_bind (g : σ → Option τ) (x : Run σ ρ) (f : ρ → Run σ ρ') :
    (x >>= f).filterSteps g = x.filterSteps g >>= fun r => (f r).filterSteps g := by
  obtain ⟨trail, outcome⟩ := x
  cases outcome with
  | error e => rfl
  | ok a => simp only [bind_ok, filterSteps_mk, List.filterMap_append]; rfl

instance : LawfulMonad (Run σ) := LawfulMonad.mk' _
  (fun x => by
    obtain ⟨trail, outcome⟩ := x
    cases outcome <;> simp [Functor.map, andThen, done])
  (fun r f => by simp [bind, andThen, pure, done])
  (fun x f g => by
    obtain ⟨trail, outcome⟩ := x
    cases outcome with
    | error e => rfl
    | ok r =>
      simp only [bind_ok]
      cases h : f r with
      | mk t o => cases o <;> simp [bind, andThen])

end Run

end LuaData
