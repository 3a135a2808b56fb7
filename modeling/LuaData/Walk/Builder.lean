import LuaData.Value.Key
import LuaData.Walk.Run

/-
  Builders: what a walk over data is for. A walk visits the data from left to right and hands
  the results of the parts to a builder, one call for each part. The calls are the events of
  the walk. A builder may draw only the first items of each container; the walk does not visit
  the others.
-/

namespace LuaData

/-- A call of a walk to its builder. Containers are announced before their items are drawn. -/
inductive Event (α : Type) where
  | constant (c : Value)
  | startSequence (size : Nat)
  | endSequence (result : α)
  | startMapping (size : Nat)
  | item (key : Value) (value : α)
  | endMapping
  | property (key : Value) (value : α)
  | root (value : α)

/-- Makes results `α` from the parts of a value, and an answer `β` from the whole. -/
structure Builder (α β : Type) where
  /-- The most items that are drawn from one container. -/
  limit : Option Nat
  constant : Value → α
  sequence : List α → α
  mapping : List (Value × α) → α
  property : Value → α → α
  finish : α → Except Failure β

namespace Builder

variable {α β γ σ : Type}

/-- The items that are drawn. -/
def drawn (b : Builder α β) (items : List γ) : List γ :=
  match b.limit with
  | some n => items.take n
  | none => items

/-- Builds values again: tuples come back as lists, and a key given twice keeps its first
position and its last value. -/
def values : Builder Value Value where
  limit := none
  constant c := c
  sequence items := .list items
  mapping entries := .map (mergeEntries entries)
  property := .property
  finish := .ok

/-- Builds an outline of the data, in which every constant is the letter `c`. -/
def outline (limit : Option Nat) : Builder String String where
  limit := limit
  constant _ := "c"
  sequence items := "[" ++ ",".intercalate items ++ "]"
  mapping entries := "\x7b" ++ ",".intercalate (entries.map Prod.snd) ++ "\x7d"
  property _ value := "<" ++ value ++ ">"
  finish := .ok

theorem mem_of_mem_drawn (b : Builder α β) {items : List γ} {x : γ} (h : x ∈ b.drawn items) :
    x ∈ items := by
  unfold drawn at h
  split at h
  · exact List.mem_of_mem_take h
  · exact h

end Builder

/-! ## Limits on nesting

A limit is any value. One that is no number fails as soon as it is asked. -/

/-- Refuses a container inside of as many containers as a limit allows. -/
def Value.checkDepth (limit : Value) (depth : Nat) : Except Failure Unit :=
  match limit.number? with
  | none => .error .limitNotNumber
  | some bound => if bound.reachedBy depth then .error (.tooDeep limit) else .ok ()

/-- Refuses a level that is more than a limit allows. -/
def Value.checkLevel (limit : Value) (level : Nat) : Except Failure Unit :=
  match limit.number? with
  | none => .error .limitNotNumber
  | some bound => if bound.passedBy level then .error (.tooDeep limit) else .ok ()

theorem Value.checkLevel_int (n : Int) (level : Nat) : (Value.int n).checkLevel level =
    if (level : Int) ≤ n then .ok () else .error (.tooDeep (.int n)) := by
  have hcheck : (Value.int n).checkLevel level =
      if (Number.int n).passedBy level then .error (.tooDeep (.int n)) else .ok () := rfl
  rw [hcheck, Number.passedBy]
  by_cases h : n < level
  · rw [if_pos (decide_eq_true h), if_neg (by omega)]
  · rw [if_neg (by rwa [decide_eq_true_eq]), if_pos (by omega)]

/-- How deep containers may be nested where nothing else is asked for. -/
def defaultLimit : Value := .int 64

end LuaData
