import LuaData.Walk.Run
import Mathlib

/-
  Two runs side by side. They take the same steps and end alike, except that one of them may end
  early with a failure that is excused; then it has taken some of the first steps of the other.
  `Run.Paired.bind` carries this from the parts of a run to the whole.
-/

namespace LuaData

/-- What two runs may differ in: failures that count as the same, and failures that may end one
of the runs early. -/
structure Parting where
  alike : Failure → Failure → Prop
  /-- Failures that may end the first run early. -/
  first : Failure → Prop
  /-- Failures that may end the second run early. -/
  second : Failure → Prop

variable {p : Parting} {σ ρ ρ' τ τ' : Type}

/-- Two outcomes that are related, or fail alike, or one of which is excused. -/
inductive Agree (p : Parting) (P : ρ → ρ' → Prop) : Except Failure ρ → Except Failure ρ' → Prop
  | ok {r : ρ} {r' : ρ'} (h : P r r') : Agree p P (.ok r) (.ok r')
  | error {e e' : Failure} (h : p.alike e e') : Agree p P (.error e) (.error e')
  | first {e : Failure} (h : p.first e) (y : Except Failure ρ') : Agree p P (.error e) y
  | second {e : Failure} (h : p.second e) (x : Except Failure ρ) : Agree p P x (.error e)

namespace Agree

variable {P : ρ → ρ' → Prop} {x : Except Failure ρ} {y : Except Failure ρ'}

theorem mono {Q : ρ → ρ' → Prop} (h : Agree p P x y)
    (hPQ : ∀ r r', P r r' → Q r r') : Agree p Q x y := by
  cases h with
  | ok h => exact .ok (hPQ _ _ h)
  | error h => exact .error h
  | first h y => exact .first h y
  | second h x => exact .second h x

theorem bind {Q : τ → τ' → Prop} {f : ρ → Except Failure τ} {g : ρ' → Except Failure τ'}
    (h : Agree p P x y)
    (hfg : ∀ r r', x = .ok r → y = .ok r' → P r r' → Agree p Q (f r) (g r')) :
    Agree p Q (x >>= f) (y >>= g) := by
  cases h with
  | ok h => exact hfg _ _ rfl rfl h
  | error h => exact .error h
  | first h y => exact .first h (y >>= g)
  | second h x => exact .second h (x >>= f)

theorem refl (halike : ∀ e, p.alike e e) (x : Except Failure ρ) : Agree p Eq x x := by
  cases x with
  | ok r => exact .ok rfl
  | error e => exact .error (halike e)

end Agree

namespace Run

/-- Two runs with the same steps and outcomes that agree, or one of which ends early. -/
inductive Paired (p : Parting) (P : ρ → ρ' → Prop) : Run σ ρ → Run σ ρ' → Prop
  | ok {trail : List σ} {r : ρ} {r' : ρ'} (h : P r r') : Paired p P ⟨trail, .ok r⟩ ⟨trail, .ok r'⟩
  | error {trail : List σ} {e e' : Failure} (h : p.alike e e') :
      Paired p P ⟨trail, .error e⟩ ⟨trail, .error e'⟩
  | first {trail : List σ} {e : Failure} {y : Run σ ρ'} (h : p.first e)
      (early : trail <+: y.trail) : Paired p P ⟨trail, .error e⟩ y
  | second {trail : List σ} {e : Failure} {x : Run σ ρ} (h : p.second e)
      (early : trail <+: x.trail) : Paired p P x ⟨trail, .error e⟩

theorem prefix_trail_bind (x : Run σ ρ) (f : ρ → Run σ τ) : x.trail <+: (x >>= f).trail := by
  obtain ⟨trail, outcome⟩ := x
  cases outcome with
  | error e => exact List.prefix_rfl
  | ok r => exact List.prefix_append trail (f r).trail

namespace Paired

variable {P : ρ → ρ' → Prop} {x : Run σ ρ} {y : Run σ ρ'}

theorem bind {Q : τ → τ' → Prop} {f : ρ → Run σ τ} {g : ρ' → Run σ τ'} (h : Paired p P x y)
    (hfg : ∀ r r', x.outcome = .ok r → y.outcome = .ok r' → P r r' → Paired p Q (f r) (g r')) :
    Paired p Q (x >>= f) (y >>= g) := by
  cases h with
  | @ok trail r r' h =>
    rw [bind_ok, bind_ok]
    have key := hfg r r' rfl rfl h
    generalize f r = s at key
    generalize g r' = t at key
    cases key with
    | ok h => exact .ok h
    | error h => exact .error h
    | first h early => exact .first h ((List.prefix_append_right_inj trail).2 early)
    | second h early => exact .second h ((List.prefix_append_right_inj trail).2 early)
  | error h => exact .error h
  | first h early => exact .first h (early.trans (prefix_trail_bind _ _))
  | second h early => exact .second h (early.trans (prefix_trail_bind _ _))

/-- Runs with equal results go on with one result. -/
theorem bind_same {Q : τ → τ' → Prop} {x y : Run σ ρ} {f : ρ → Run σ τ} {g : ρ → Run σ τ'}
    (h : Paired p Eq x y) (hfg : ∀ r, Paired p Q (f r) (g r)) :
    Paired p Q (x >>= f) (y >>= g) :=
  h.bind fun r _ _ _ hr => hr ▸ hfg r

theorem pure {r : ρ} {r' : ρ'} (h : P r r') : Paired p P (pure r : Run σ ρ) (pure r') := .ok h

theorem fail {e e' : Failure} (h : p.alike e e') : Paired p P (fail e : Run σ ρ) (fail e') :=
  .error h

theorem steps_bind {Q : τ → τ' → Prop} (trail : List σ) {f : Unit → Run σ τ}
    {g : Unit → Run σ τ'} (h : Paired p Q (f ()) (g ())) :
    Paired p Q (Run.steps trail >>= f) (Run.steps trail >>= g) :=
  bind_same (.ok rfl) fun _ => h

theorem ofExcept {x : Except Failure ρ} {y : Except Failure ρ'} (h : Agree p P x y) :
    Paired p P (ofExcept x : Run σ ρ) (ofExcept y) := by
  cases h with
  | ok h => exact .ok h
  | error h => exact .error h
  | first h y => exact .first h List.nil_prefix
  | second h x => exact .second h List.nil_prefix

end Paired

end Run

end LuaData
