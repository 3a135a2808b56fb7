import LuaData.Failure
import LuaData.Value.Document
import LuaData.Value.Key

/-
  References in a tree. A walk over a tree looks a reference up when it comes to it. A tree may
  enclose itself, so a walk has a reach: each construct that it enters uses some of it up, and
  where none is left no reference is looked up any more. A tree without references is walked
  over alike whatever the reach is.
-/

namespace LuaData

namespace Node

/-! ## Reach

A construct uses up as much of the reach as there are calls between its visit and the visits
of its parts. -/

/-- The reach that a walk over a tree starts with: an interpreter's limit on nested calls, less
the calls that its caller takes up. -/
def fullReach : Nat := 990

def negationCost : Nat := 1

def chunkCost : Nat := 1

/-- The cost of a statement with one expression. -/
def singleCost : Nat := 2

/-- The cost of a statement with several expressions. -/
def severalCost : Nat := 4

def tableCost : Nat := 6

/-! ## Looking references up -/

/-- What a part of a tree is, looked up if it is a reference. -/
def follow (table : List Value) (reach : Nat) : Value → Except Failure Value
  | .shared kind i =>
    match table[i]? with
    | some v => if reach = 0 then .error .endless else .ok v
    | none => .ok (.shared kind i)
  | v => .ok v

@[simp] theorem follow_nil (reach : Nat) (v : Value) : follow [] reach v = .ok v := by
  cases v <;> rfl

theorem eq_of_follow {table : List Value} {reach : Nat} {v w : Value}
    (h : follow table reach v = .ok w) (h0 : reach = 0) : w = v := by
  unfold follow at h
  split at h
  · split at h
    · simp [h0] at h
    · cases h; rfl
  · cases h; rfl

/-- The elements of a part of a tree. -/
def elements (table : List Value) (reach : Nat) (v : Value) : Except Failure (List Value) := do
  match (← follow table reach v).elements? with
  | some items => .ok items
  | none => .error .noElements

/-- The expressions of a statement. -/
inductive Expressions where
  | one (node : Value)
  | several (nodes : List Value)

/-- A single expression is the one at position zero. -/
def expressions (table : List Value) (reach : Nat) (v : Value) : Except Failure Expressions := do
  let v ← follow table reach v
  match v.elements? with
  | some items =>
    if items.length = 1 then
      match v.atZero? with
      | some node => .ok (.one node)
      | none => .error .noFirst
    else .ok (.several items)
  | none => .error .noElements

/-- The first statement of a body. -/
def firstStatement? (table : List Value) (reach : Nat) (body : Value) :
    Except Failure (Option Value) := do
  return (← follow table reach body).first?

/-! ## Weights

Where no reference is looked up, the parts of a value are no heavier than the value. -/

/-- The weight of the heaviest value of a list. -/
def heaviest : List Value → Nat
  | [] => 0
  | v :: rest => max v.weight (heaviest rest)

theorem heaviest_le {items : List Value} {n : Nat} (h : ∀ v ∈ items, v.weight ≤ n) :
    heaviest items ≤ n := by
  induction items with
  | nil => exact Nat.zero_le _
  | cons v rest ih =>
    have h1 := h v List.mem_cons_self
    have h2 := ih fun w hw => h w (List.mem_cons_of_mem _ hw)
    simp only [heaviest]; omega

theorem weight_le_heaviest {items : List Value} {v : Value} (h : v ∈ items) :
    v.weight ≤ heaviest items := by
  induction items with
  | nil => cases h
  | cons w rest ih =>
    simp only [heaviest]
    rcases List.mem_cons.1 h with rfl | h
    · omega
    · have := ih h; omega

theorem heaviest_mono {items more : List Value} (h : ∀ v ∈ items, v ∈ more) :
    heaviest items ≤ heaviest more :=
  heaviest_le fun v hv => weight_le_heaviest (h v hv)

theorem exists_of_bind_ok {α β : Type} {x : Except Failure α} {f : α → Except Failure β} {b : β}
    (h : (x >>= f) = .ok b) : ∃ a, x = .ok a ∧ f a = .ok b := by
  cases x with
  | error e => cases h
  | ok a => exact ⟨a, rfl, h⟩

theorem weight_le_of_mem_elements {table : List Value} {reach : Nat} {v w : Value}
    {items : List Value} (h : elements table reach v = .ok items) (h0 : reach = 0)
    (hw : w ∈ items) : w.weight ≤ v.weight := by
  obtain ⟨u, hu, hk⟩ := exists_of_bind_ok h
  obtain rfl := eq_of_follow hu h0
  split at hk
  · rename_i hi; cases hk
    exact Value.weight_le_of_mem_elements? hi hw
  · cases hk

theorem weight_one_le {table : List Value} {reach : Nat} {v node : Value}
    (h : expressions table reach v = .ok (.one node)) (h0 : reach = 0) :
    node.weight ≤ v.weight := by
  obtain ⟨u, hu, hk⟩ := exists_of_bind_ok h
  obtain rfl := eq_of_follow hu h0
  split at hk
  · split at hk
    · split at hk
      · rename_i hz; cases hk
        exact Value.weight_atZero?_le hz
      · cases hk
    · cases hk
  · cases hk

theorem heaviest_several_le {table : List Value} {reach : Nat} {v : Value} {nodes : List Value}
    (h : expressions table reach v = .ok (.several nodes)) (h0 : reach = 0) :
    heaviest nodes ≤ v.weight := by
  obtain ⟨u, hu, hk⟩ := exists_of_bind_ok h
  obtain rfl := eq_of_follow hu h0
  split at hk
  · rename_i hi
    split at hk
    · split at hk <;> cases hk
    · cases hk
      exact heaviest_le fun _ hx => Value.weight_le_of_mem_elements? hi hx
  · cases hk

theorem weight_firstStatement?_lt {table : List Value} {reach : Nat} {body node : Value}
    (h : firstStatement? table reach body = .ok (some node)) (h0 : reach = 0) :
    node.weight < body.weight := by
  obtain ⟨u, hu, hk⟩ := exists_of_bind_ok h
  obtain rfl := eq_of_follow hu h0
  exact Value.weight_first?_lt (Except.ok.inj hk)

/-- A walk goes on with less reach, or with lighter values where there is none left. -/
theorem lex_of_reach {γ : Type} {r : γ → γ → Prop} {reach cost a b : Nat} {c d : γ}
    (hc : 0 < cost) (h : reach = 0 → a < b) :
    Prod.Lex (· < ·) (Prod.Lex (· < ·) r) (reach - cost, a, c) (reach, b, d) := by
  by_cases h0 : reach = 0
  · subst h0
    rw [Nat.zero_sub]
    exact Prod.Lex.right _ (Prod.Lex.left _ _ (h rfl))
  · exact Prod.Lex.left _ _ (by omega)

end Node

end LuaData
