import LuaData.Proofs.Walk.Fold

/-
  The walk over a value told as one list. `Value.stages` goes depth first and from left to right
  and says, for all of a value, which places are come to and which calls are made, whatever is
  found at the places; what is wrong at a place is said by `Place.fault?`. The results in the
  calls are the parts themselves, so the list is the same for every builder. `Stage.perform`
  makes the calls until there is a fault.
-/

namespace LuaData

open Walk (isPropertyKey isMapKey)

/-- The same call with its results seen as others. -/
def Event.map {α β : Type} (f : α → β) : Event α → Event β
  | .constant c => .constant c
  | .startSequence size => .startSequence size
  | .endSequence result => .endSequence (f result)
  | .startMapping size => .startMapping size
  | .item key value => .item key (f value)
  | .endMapping => .endMapping
  | .property key value => .property key (f value)
  | .root value => .root (f value)

namespace Walk

/-! ## Places -/

/-- A place that a walk comes to in a value that is written out. A reference that is left there
is one of a value to itself. -/
inductive Place where
  /-- A value, inside of `depth` containers. -/
  | value (depth : Nat) (v : Value)
  /-- The shared property number `i`, as an item inside of itself. -/
  | again (i : Nat)
  | propertyKey (k : Value)
  | mapKey (k : Value)

/-- The failure of a check, if it fails. -/
def failure? : Except Failure Unit → Option Failure
  | .ok () => none
  | .error e => some e

/-- What is wrong at a place. A reference is refused whatever the depth is, so that a container
inside of itself is recursive before it is too deep. -/
def Place.fault? (table : List Value) (limit : Value) : Place → Option Failure
  | .value depth v =>
    match v with
    | .nil | .bool _ | .number _ | .text _ => none
    | .list _ | .tuple _ | .map _ => failure? (limit.checkDepth depth)
    | .property .. | .shared .property _ => some (.value .misplacedProperty v.typeName)
    | .shared _ i =>
      if i < table.length then some (.value .recursive v.typeName)
      else some (.value .notData v.typeName)
    | .foreign .. | .derived .. => some (.value .notData v.typeName)
  | .again i =>
    let v := Value.shared .property i
    if i < table.length then some (.value .recursive (held (Document.deref table v)).typeName)
    else some (.value .notData v.typeName)
  | .propertyKey k => if isPropertyKey k then none else some (.value .propertyKey k.typeName)
  | .mapKey k => if isMapKey k then none else some (.value .tableKey k.typeName)

/-- What a walk does next: it comes to a place, or it calls its builder with parts of the data
in the place of results. -/
inductive Stage where
  | reach (place : Place)
  | call (event : Event Value)

namespace Stage

variable {α β : Type}

def fault? (table : List Value) (limit : Value) : Stage → Option Failure
  | .reach place => place.fault? table limit
  | .call _ => none

/-- The call of a stage to a builder. -/
def call? (b : Builder α β) : Stage → Option (Event α)
  | .reach _ => none
  | .call event => some (event.map (Value.fold b))

/-- Goes through stages until there is a fault. -/
def perform (b : Builder α β) (table : List Value) (limit : Value) :
    List Stage → Run (Event α) Unit
  | [] => return ()
  | .reach place :: rest =>
    match place.fault? table limit with
    | some e => .fail e
    | none => perform b table limit rest
  | .call event :: rest => do
    .step (event.map (Value.fold b))
    perform b table limit rest

variable {b : Builder α β} {table : List Value} {limit : Value}

theorem perform_nil : perform b table limit [] = return () := rfl

theorem perform_fault {place : Place} {e : Failure} (h : place.fault? table limit = some e)
    (rest : List Stage) : perform b table limit (.reach place :: rest) = .fail e := by
  rw [perform, h]

theorem perform_clear {place : Place} (h : place.fault? table limit = none)
    (rest : List Stage) :
    perform b table limit (.reach place :: rest) = perform b table limit rest := by
  rw [perform, h]

theorem perform_call (event : Event Value) (rest : List Stage) :
    perform b table limit (.call event :: rest) = (do
      .step (event.map (Value.fold b))
      perform b table limit rest) := rfl

theorem perform_append (before after : List Stage) :
    perform b table limit (before ++ after) = (do
      perform b table limit before
      perform b table limit after) := by
  induction before with
  | nil => rw [List.nil_append, perform_nil, pure_bind]
  | cons s before ih =>
    cases s with
    | reach place =>
      cases h : place.fault? table limit with
      | none => rw [List.cons_append, perform_clear h, perform_clear h, ih]
      | some e => rw [List.cons_append, perform_fault h, perform_fault h]; rfl
    | call event => rw [List.cons_append, perform_call, perform_call, ih, bind_assoc]

/-- Where nothing is wrong all calls are made. -/
theorem perform_of_clear {stages : List Stage}
    (h : ∀ s ∈ stages, s.fault? table limit = none) :
    perform b table limit stages = ⟨stages.filterMap (call? b), .ok ()⟩ := by
  induction stages with
  | nil => rfl
  | cons s rest ih =>
    obtain ⟨hs, hrest⟩ := List.forall_mem_cons.1 h
    cases s with
    | reach place => rw [perform_clear hs, ih hrest]; rfl
    | call event => rw [perform_call, ih hrest]; rfl

/-- Stages without a fault, or up to the first place with one. -/
theorem exists_first_fault (table : List Value) (limit : Value) (stages : List Stage) :
    (∀ s ∈ stages, s.fault? table limit = none) ∨
    ∃ before place after e, stages = before ++ .reach place :: after ∧
      (∀ s ∈ before, s.fault? table limit = none) ∧ place.fault? table limit = some e := by
  induction stages with
  | nil => exact Or.inl fun s hs => absurd hs List.not_mem_nil
  | cons s rest ih =>
    have further : s.fault? table limit = none →
        (∀ t ∈ s :: rest, t.fault? table limit = none) ∨
        ∃ before place after e, s :: rest = before ++ .reach place :: after ∧
          (∀ t ∈ before, t.fault? table limit = none) ∧ place.fault? table limit = some e := by
      intro hs
      rcases ih with hrest | ⟨before, place, after, e, rfl, hbefore, he⟩
      · exact Or.inl (List.forall_mem_cons.2 ⟨hs, hrest⟩)
      · exact Or.inr ⟨s :: before, place, after, e, rfl,
          List.forall_mem_cons.2 ⟨hs, hbefore⟩, he⟩
    cases s with
    | call event => exact further rfl
    | reach place =>
      cases h : place.fault? table limit with
      | none => exact further h
      | some e => exact Or.inr ⟨[], place, rest, e, rfl, fun t ht => absurd ht List.not_mem_nil, h⟩

end Stage

end Walk

namespace Value

open Walk (Stage)

/-! ## Stages -/

mutual

/-- The stages of a walk over a value, which is an item of a list or tuple or stands on its own.
Only the first is said of a property; its key comes before its value. -/
def stages (depth : Nat) (item : Bool) : Value → List Stage
  | .list items => .reach (.value depth (.list items)) :: .call (.startSequence items.length) ::
      (stagesAll (depth + 1) items ++ [.call (.endSequence (.list items))])
  | .tuple items => .reach (.value depth (.tuple items)) :: .call (.startSequence items.length) ::
      (stagesAll (depth + 1) items ++ [.call (.endSequence (.tuple items))])
  | .map entries => .reach (.value depth (.map entries)) :: .call (.startMapping entries.length) ::
      (stagesEntries (depth + 1) entries ++ [.call .endMapping])
  | .property k v =>
    if item then .reach (.propertyKey k) :: (stages depth false v ++ [.call (.property k v)])
    else [.reach (.value depth (.property k v))]
  | .shared .property i =>
    [.reach (if item then .again i else .value depth (.shared .property i))]
  | .shared kind i => [.reach (.value depth (.shared kind i))]
  | .foreign name form => [.reach (.value depth (.foreign name form))]
  | .derived name v => [.reach (.value depth (.derived name v))]
  | leaf => [.reach (.value depth leaf), .call (.constant leaf)]

def stagesAll (depth : Nat) : List Value → List Stage
  | [] => []
  | v :: rest => stages depth true v ++ stagesAll depth rest

/-- The stages of the entries of a map. A key comes after the value of the entry before it and
before its own. -/
def stagesEntries (depth : Nat) : List (Value × Value) → List Stage
  | [] => []
  | (k, v) :: rest =>
    .reach (.mapKey k) :: (stages depth false v ++ .call (.item k v) :: stagesEntries depth rest)

end

theorem stages_sequence {mk : List Value → Value} (hm : IsSequence mk) (depth : Nat) (item : Bool)
    (items : List Value) : (mk items).stages depth item =
      .reach (.value depth (mk items)) :: .call (.startSequence items.length) ::
        (stagesAll (depth + 1) items ++ [.call (.endSequence (mk items))]) := by
  cases hm <;> rfl

theorem stages_leaf {v : Value} (h : v.isLeaf) (depth : Nat) (item : Bool) :
    v.stages depth item = [.reach (.value depth v), .call (.constant v)] := by
  cases v <;> first | rfl | cases h

end Value

end LuaData
