import LuaData.Walk.Document
import Mathlib

/-
  What a builder makes of a value, told without a walk: `Value.fold` is the result and
  `Value.events` are the calls, in their order. `Value.IsItem` says which values can be the
  items of a list, `Value.IsData` which can be written on their own. Every other function of
  data here is a builder of its own: how deep the containers of a value nest, which leaves it
  holds, whether each of its maps holds a key once. `Builder.Complete` are the builders that no
  walk can make fail.
-/

namespace LuaData

open Walk (isPropertyKey isMapKey)

namespace Value

variable {α β : Type}

/-- The two ways of holding items in their order. -/
inductive IsSequence : (List Value → Value) → Prop
  | list : IsSequence .list
  | tuple : IsSequence .tuple

/-! ## Results and calls -/

mutual

/-- What a builder makes of a value. -/
def fold (b : Builder α β) : Value → α
  | .list items => b.sequence (foldAll b items)
  | .tuple items => b.sequence (foldAll b items)
  | .map entries => b.mapping (foldEntries b entries)
  | .property k v => b.property k (fold b v)
  | v => b.constant v

def foldAll (b : Builder α β) : List Value → List α
  | [] => []
  | v :: rest => fold b v :: foldAll b rest

def foldEntries (b : Builder α β) : List (Value × Value) → List (Value × α)
  | [] => []
  | (k, v) :: rest => (k, fold b v) :: foldEntries b rest

end

theorem foldAll_eq_map (b : Builder α β) (items : List Value) :
    foldAll b items = items.map (fold b) := by
  induction items with
  | nil => rfl
  | cons v rest ih => rw [foldAll, ih, List.map_cons]

theorem foldEntries_eq_map (b : Builder α β) (entries : List (Value × Value)) :
    foldEntries b entries = entries.map fun e => (e.1, fold b e.2) := by
  induction entries with
  | nil => rfl
  | cons e rest ih => obtain ⟨k, v⟩ := e; rw [foldEntries, ih, List.map_cons]

theorem fold_sequence (b : Builder α β) {mk : List Value → Value} (hm : IsSequence mk)
    (items : List Value) : fold b (mk items) = b.sequence (items.map (fold b)) := by
  cases hm <;> rw [fold, foldAll_eq_map]

@[simp] theorem fold_list (b : Builder α β) (items : List Value) :
    fold b (.list items) = b.sequence (items.map (fold b)) := fold_sequence b .list items

@[simp] theorem fold_tuple (b : Builder α β) (items : List Value) :
    fold b (.tuple items) = b.sequence (items.map (fold b)) := fold_sequence b .tuple items

@[simp] theorem fold_map (b : Builder α β) (entries : List (Value × Value)) :
    fold b (.map entries) = b.mapping (entries.map fun e => (e.1, fold b e.2)) := by
  rw [fold, foldEntries_eq_map]

@[simp] theorem fold_property (b : Builder α β) (k v : Value) :
    fold b (.property k v) = b.property k (fold b v) := by
  rw [fold]

theorem fold_leaf (b : Builder α β) {v : Value} (h : v.isLeaf) : fold b v = b.constant v := by
  cases v <;> first | rfl | cases h

mutual

/-- The calls for a value, one for each of its parts. -/
def events (b : Builder α β) : Value → List (Event α)
  | .list items =>
    .startSequence items.length :: (eventsAll b items ++ [.endSequence (fold b (.list items))])
  | .tuple items =>
    .startSequence items.length :: (eventsAll b items ++ [.endSequence (fold b (.tuple items))])
  | .map entries => .startMapping entries.length :: (eventsEntries b entries ++ [.endMapping])
  | .property k v => events b v ++ [.property k (fold b v)]
  | v => [.constant v]

def eventsAll (b : Builder α β) : List Value → List (Event α)
  | [] => []
  | v :: rest => events b v ++ eventsAll b rest

def eventsEntries (b : Builder α β) : List (Value × Value) → List (Event α)
  | [] => []
  | (k, v) :: rest => events b v ++ .item k (fold b v) :: eventsEntries b rest

end

theorem events_sequence (b : Builder α β) {mk : List Value → Value} (hm : IsSequence mk)
    (items : List Value) :
    events b (mk items) = .startSequence items.length ::
      (eventsAll b items ++ [.endSequence (b.sequence (items.map (fold b)))]) := by
  cases hm <;> rw [events, fold, foldAll_eq_map]

theorem events_leaf (b : Builder α β) {v : Value} (h : v.isLeaf) :
    events b v = [.constant v] := by
  cases v <;> first | rfl | cases h

/-! ## Data -/

def isProperty : Value → Bool
  | .property .. => true
  | _ => false

/-- A value that can be an item of a list: all of it is of the exact kinds, properties are only
items of lists, and keys are of the kinds that keys can be of. -/
inductive IsItem : Value → Prop
  | leaf {v : Value} (h : v.isLeaf) : IsItem v
  | list {items : List Value} (h : ∀ v ∈ items, IsItem v) : IsItem (.list items)
  | tuple {items : List Value} (h : ∀ v ∈ items, IsItem v) : IsItem (.tuple items)
  | map {entries : List (Value × Value)} (hk : ∀ e ∈ entries, isMapKey e.1)
      (hp : ∀ e ∈ entries, e.2.isProperty = false) (h : ∀ e ∈ entries, IsItem e.2) :
      IsItem (.map entries)
  | property {k v : Value} (hk : isPropertyKey k) (hp : v.isProperty = false) (h : IsItem v) :
      IsItem (.property k v)

/-- A value that can be written on its own. -/
def IsData (v : Value) : Prop := v.IsItem ∧ v.isProperty = false

theorem isItem_sequence {mk : List Value → Value} (hm : IsSequence mk) {items : List Value} :
    IsItem (mk items) ↔ ∀ v ∈ items, IsItem v := by
  cases hm with
  | list => exact ⟨fun h => by cases h with | leaf h => cases h | list h => exact h, .list⟩
  | tuple => exact ⟨fun h => by cases h with | leaf h => cases h | tuple h => exact h, .tuple⟩

theorem isItem_map {entries : List (Value × Value)} :
    IsItem (.map entries) ↔ ∀ e ∈ entries, isMapKey e.1 ∧ IsData e.2 := by
  constructor
  · intro h e he
    cases h with
    | leaf h => cases h
    | map hk hp h => exact ⟨hk e he, h e he, hp e he⟩
  · intro h
    exact .map (fun e he => (h e he).1) (fun e he => (h e he).2.2) fun e he => (h e he).2.1

theorem isItem_property {k v : Value} :
    IsItem (.property k v) ↔ isPropertyKey k ∧ IsData v := by
  constructor
  · intro h
    cases h with
    | leaf h => cases h
    | property hk hp h => exact ⟨hk, h, hp⟩
  · rintro ⟨hk, h, hp⟩
    exact .property hk hp h

theorem not_isItem_shared {kind : SharedKind} {i : Nat} : ¬ IsItem (.shared kind i) := by
  intro h
  cases h with
  | leaf h => cases h

theorem not_isItem_derived {name : String} {v : Value} : ¬ IsItem (.derived name v) := by
  intro h
  cases h with
  | leaf h => cases h

theorem not_isItem_foreign {name form : String} : ¬ IsItem (.foreign name form) := by
  intro h
  cases h with
  | leaf h => cases h

theorem isData_of_isLeaf {v : Value} (h : v.isLeaf) : IsData v :=
  ⟨.leaf h, by cases v <;> first | rfl | cases h⟩

theorem isLeaf_of_isPropertyKey {k : Value} (h : isPropertyKey k) : k.isLeaf := by
  cases k <;> first | rfl | cases h

theorem isLeaf_of_isMapKey {k : Value} (h : isMapKey k) : k.isLeaf := by
  cases k <;> first | rfl | cases h

theorem eq_text_of_isMapKey {k : Value} (h : isMapKey k) : ∃ s, k = .text s := by
  cases k <;> first | exact ⟨_, rfl⟩ | cases h

/-! ## Nesting -/

/-- The largest of some numbers. -/
def largest (ns : List Nat) : Nat := ns.foldr max 0

theorem largest_le {ns : List Nat} {m : Nat} : largest ns ≤ m ↔ ∀ n ∈ ns, n ≤ m := by
  induction ns with
  | nil => simp [largest]
  | cons n rest ih =>
    have e : largest (n :: rest) = max n (largest rest) := rfl
    rw [e, Nat.max_le, ih, List.forall_mem_cons]

theorem le_largest {ns : List Nat} {n : Nat} (h : n ∈ ns) : n ≤ largest ns :=
  largest_le.1 (Nat.le_refl _) n h

end Value

namespace Builder

/-- Counts how deep containers nest. -/
def nesting : Builder Nat Nat where
  limit := none
  constant _ := 0
  sequence ns := 1 + Value.largest ns
  mapping entries := 1 + Value.largest (entries.map Prod.snd)
  property _ n := n
  finish := .ok

/-- Gathers the leaves, keys being leaves as well. -/
def leaves : Builder (List Value) (List Value) where
  limit := none
  constant c := [c]
  sequence := List.flatten
  mapping entries := entries.flatMap fun e => e.1 :: e.2
  property k cs := k :: cs
  finish := .ok

/-- Gathers the keys of maps. -/
def mapKeys : Builder (List Value) (List Value) where
  limit := none
  constant _ := []
  sequence := List.flatten
  mapping entries := entries.flatMap fun e => e.1 :: e.2
  property _ ks := ks
  finish := .ok

end Builder

/-- Whether no two of some keys are the same. -/
def distinctKeys : List Value → Bool
  | [] => true
  | k :: rest => rest.all (fun l => !k.sameKey l) && distinctKeys rest

namespace Builder

/-- Tells whether every mapping is handed over with each of its keys once. -/
def keysOnce : Builder Bool Bool where
  limit := none
  constant _ := true
  sequence items := items.all id
  mapping entries := distinctKeys (entries.map Prod.fst) && entries.all Prod.snd
  property _ value := value
  finish := .ok

/-- Builds values again, tuples as lists; entries are kept as they come. -/
def listed : Builder Value Value where
  limit := none
  constant c := c
  sequence := .list
  mapping := .map
  property := .property
  finish := .ok

end Builder

namespace Value

/-- How many containers nest in a value. -/
def nesting (v : Value) : Nat := v.fold .nesting

/-- The leaves of a value, the keys of its maps and properties among them. -/
def leaves (v : Value) : List Value := v.fold .leaves

/-- The keys of the maps in a value. -/
def mapKeys (v : Value) : List Value := v.fold .mapKeys

/-- Whether each map in a value holds a key once. -/
def keysOnce (v : Value) : Bool := v.fold .keysOnce

/-- The value with its tuples as lists. -/
def listed (v : Value) : Value := v.fold .listed

/-! ## Nesting of each kind of value -/

theorem nesting_sequence {mk : List Value → Value} (hm : IsSequence mk) (items : List Value) :
    nesting (mk items) = 1 + largest (items.map nesting) :=
  fold_sequence _ hm items

theorem nesting_map (entries : List (Value × Value)) :
    nesting (.map entries) = 1 + largest (entries.map fun e => e.2.nesting) := by
  rw [nesting, fold_map]
  simp only [Builder.nesting, List.map_map]
  rfl

theorem nesting_property (k v : Value) : nesting (.property k v) = v.nesting :=
  fold_property _ k v

theorem nesting_leaf {v : Value} (h : v.isLeaf) : v.nesting = 0 := fold_leaf _ h

/-! ## Leaves of each kind of value -/

theorem leaves_sequence {mk : List Value → Value} (hm : IsSequence mk) (items : List Value) :
    leaves (mk items) = items.flatMap leaves :=
  (fold_sequence _ hm items).trans List.flatMap_def.symm

theorem leaves_map (entries : List (Value × Value)) :
    leaves (.map entries) = entries.flatMap fun e => e.1 :: e.2.leaves := by
  rw [leaves, fold_map]
  simp only [Builder.leaves, List.flatMap_map]
  rfl

theorem leaves_property (k v : Value) : leaves (.property k v) = k :: v.leaves :=
  fold_property _ k v

theorem leaves_leaf {v : Value} (h : v.isLeaf) : v.leaves = [v] := fold_leaf _ h

/-! ## Keys of each kind of value -/

theorem mapKeys_sequence {mk : List Value → Value} (hm : IsSequence mk) (items : List Value) :
    mapKeys (mk items) = items.flatMap mapKeys :=
  (fold_sequence _ hm items).trans List.flatMap_def.symm

theorem mapKeys_map (entries : List (Value × Value)) :
    mapKeys (.map entries) = entries.flatMap fun e => e.1 :: e.2.mapKeys := by
  rw [mapKeys, fold_map]
  simp only [Builder.mapKeys, List.flatMap_map]
  rfl

theorem mapKeys_property (k v : Value) : mapKeys (.property k v) = v.mapKeys :=
  fold_property _ k v

/-! ## Rebuilding

Entries whose keys differ stay as they are when they are put one after the other, so the builder
of values makes of data with such maps the same data, its tuples as lists. -/

end Value

theorem putEntry_of_forall_ne {α : Type} {key : Value} {value : α} {entries : List (Value × α)}
    (h : ∀ e ∈ entries, e.1.sameKey key = false) :
    putEntry key value entries = entries ++ [(key, value)] := by
  induction entries with
  | nil => rfl
  | cons e rest ih =>
    obtain ⟨k, v⟩ := e
    have hk : k.sameKey key = false := h (k, v) List.mem_cons_self
    rw [putEntry, hk, ih fun e he => h e (List.mem_cons_of_mem _ he)]
    rfl

theorem distinctKeys_cons {k : Value} {keys : List Value} :
    distinctKeys (k :: keys) ↔ (∀ l ∈ keys, k.sameKey l = false) ∧ distinctKeys keys := by
  simp only [distinctKeys, Bool.and_eq_true, List.all_eq_true, Bool.not_eq_true']

theorem mergeEntries_of_distinct {α : Type} {entries : List (Value × α)}
    (h : distinctKeys (entries.map Prod.fst)) : mergeEntries entries = entries := by
  have key : ∀ (done entries : List (Value × α)), distinctKeys (entries.map Prod.fst) →
      (∀ e ∈ done, ∀ f ∈ entries, e.1.sameKey f.1 = false) →
      entries.foldl (fun done e => putEntry e.1 e.2 done) done = done ++ entries := by
    intro done entries
    induction entries generalizing done with
    | nil => intro _ _; rw [List.foldl_nil, List.append_nil]
    | cons e rest ih =>
      intro hd hne
      rw [List.map_cons, distinctKeys_cons] at hd
      rw [List.foldl_cons, putEntry_of_forall_ne fun f hf => hne f hf e List.mem_cons_self,
        ih _ hd.2, List.append_assoc, List.singleton_append]
      intro f hf g hg
      rcases List.mem_append.1 hf with hf | hf
      · exact hne f hf g (List.mem_cons_of_mem _ hg)
      · rw [List.mem_singleton.1 hf]
        exact hd.1 g.1 (List.mem_map_of_mem hg)
  exact key [] entries h fun e he => absurd he List.not_mem_nil

namespace Value

theorem listed_sequence {mk : List Value → Value} (hm : IsSequence mk) (items : List Value) :
    listed (mk items) = .list (items.map listed) :=
  fold_sequence _ hm items

theorem listed_map (entries : List (Value × Value)) :
    listed (.map entries) = .map (entries.map fun e => (e.1, e.2.listed)) :=
  fold_map _ entries

theorem listed_property (k v : Value) : listed (.property k v) = .property k v.listed :=
  fold_property _ k v

theorem listed_leaf {v : Value} (h : v.isLeaf) : v.listed = v := fold_leaf _ h

theorem keysOnce_sequence {mk : List Value → Value} (hm : IsSequence mk) {items : List Value} :
    keysOnce (mk items) ↔ ∀ v ∈ items, v.keysOnce := by
  rw [keysOnce, fold_sequence _ hm]
  simp only [Builder.keysOnce, List.all_map, List.all_eq_true, Function.comp, id]
  rfl

theorem keysOnce_map {entries : List (Value × Value)} :
    keysOnce (.map entries) ↔
      distinctKeys (entries.map Prod.fst) ∧ ∀ e ∈ entries, e.2.keysOnce := by
  rw [keysOnce, fold_map]
  simp only [Builder.keysOnce, List.map_map, List.all_map, List.all_eq_true, Bool.and_eq_true]
  rfl

theorem keysOnce_property (k v : Value) : keysOnce (.property k v) = v.keysOnce :=
  fold_property _ k v

/-- Building data again changes its tuples only. -/
theorem fold_values {v : Value} (h : v.IsItem) (hk : v.keysOnce) :
    v.fold .values = v.listed := by
  induction h with
  | leaf h => rw [fold_leaf _ h, listed_leaf h]; rfl
  | list h ih =>
    rw [fold_list, listed_sequence .list,
      List.map_congr_left fun w hw => ih w hw ((keysOnce_sequence .list).1 hk w hw)]
    rfl
  | tuple h ih =>
    rw [fold_tuple, listed_sequence .tuple,
      List.map_congr_left fun w hw => ih w hw ((keysOnce_sequence .tuple).1 hk w hw)]
    rfl
  | @map entries _ _ h ih =>
    obtain ⟨hd, hk⟩ := keysOnce_map.1 hk
    rw [fold_map, listed_map]
    show Value.map (mergeEntries _) = _
    rw [mergeEntries_of_distinct (by rwa [List.map_map]),
      List.map_congr_left fun e he => congrArg (Prod.mk e.1) (ih e he (hk e he))]
  | property _ _ h ih =>
    rw [keysOnce_property] at hk
    rw [fold_property, listed_property, ih hk]
    rfl

end Value

/-! ## What a builder has made -/

namespace Builder

variable {α β : Type}

/-- The results that a builder has made, each out of its own. -/
inductive Made (b : Builder α β) : α → Prop
  | constant (c : Value) : Made b (b.constant c)
  | sequence {results : List α} (h : ∀ r ∈ results, Made b r) : Made b (b.sequence results)
  | mapping {entries : List (Value × α)} (h : ∀ e ∈ entries, Made b e.2) :
      Made b (b.mapping entries)
  | property (k : Value) {r : α} (h : Made b r) : Made b (b.property k r)

/-- A builder that draws all items, and finishes with whatever it has made. -/
structure Complete (b : Builder α β) : Prop where
  draws : b.limit = none
  finishes : ∀ r, b.Made r → ∃ s, b.finish r = .ok s

mutual

theorem made_fold (b : Builder α β) : (v : Value) → b.Made (v.fold b)
  | .list items => .sequence (made_foldAll b items)
  | .tuple items => .sequence (made_foldAll b items)
  | .map entries => .mapping (made_foldEntries b entries)
  | .property k v => .property k (made_fold b v)
  | .nil | .bool _ | .number _ | .text _ | .foreign .. | .derived .. | .shared .. => .constant _

theorem made_foldAll (b : Builder α β) : (items : List Value) →
    ∀ r ∈ Value.foldAll b items, b.Made r
  | [] => fun _ hr => absurd hr List.not_mem_nil
  | v :: rest => List.forall_mem_cons.2 ⟨made_fold b v, made_foldAll b rest⟩

theorem made_foldEntries (b : Builder α β) : (entries : List (Value × Value)) →
    ∀ e ∈ Value.foldEntries b entries, b.Made e.2
  | [] => fun _ he => absurd he List.not_mem_nil
  | (_, v) :: rest => List.forall_mem_cons.2 ⟨made_fold b v, made_foldEntries b rest⟩

end

theorem complete_values : values.Complete := ⟨rfl, fun r _ => ⟨r, rfl⟩⟩

theorem complete_outline : (outline none).Complete := ⟨rfl, fun r _ => ⟨r, rfl⟩⟩

end Builder

end LuaData
