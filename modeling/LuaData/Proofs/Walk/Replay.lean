import LuaData.Proofs.Document.Walk

/-
  The calls of a walk as an encoding of data. `Delivers` says which sequences of calls stand for
  which value: a container is announced with its size, as many items are delivered, each by
  calls of its own, and the matching end closes it. `Machine.replay` builds the value again from
  the calls alone; it keeps a stack of results and a stack of open containers and never looks at
  what the builder made of the parts. Calls that deliver a value are replayed to it
  (`Delivers.replay`), so they deliver no other one (`Encodes.unique`).
-/

namespace LuaData

/-! ## Calls that stand for data -/

mutual

/-- The calls for one value. Entries with the same key are one entry of the value. -/
inductive Delivers {α : Type} : List (Event α) → Value → Prop
  | constant (c : Value) : Delivers [.constant c] c
  | sequence {calls : List (Event α)} {items : List Value} (h : DeliversItems calls items)
      (r : α) :
      Delivers (.startSequence items.length :: (calls ++ [.endSequence r])) (.list items)
  | mapping {calls : List (Event α)} {entries : List (Value × Value)}
      (h : DeliversEntries calls entries) :
      Delivers (.startMapping entries.length :: (calls ++ [.endMapping]))
        (.map (mergeEntries entries))

/-- The calls for the items of a sequence. A property is made of the value before it. -/
inductive DeliversItems {α : Type} : List (Event α) → List Value → Prop
  | nil : DeliversItems [] []
  | plain {calls rest : List (Event α)} {v : Value} {items : List Value} (h : Delivers calls v)
      (hs : DeliversItems rest items) : DeliversItems (calls ++ rest) (v :: items)
  | property {calls rest : List (Event α)} {v : Value} {items : List Value} (key : Value) (r : α)
      (h : Delivers calls v) (hs : DeliversItems rest items) :
      DeliversItems (calls ++ .property key r :: rest) (.property key v :: items)

/-- The calls for the items of a mapping. The key of a value comes after its calls. -/
inductive DeliversEntries {α : Type} : List (Event α) → List (Value × Value) → Prop
  | nil : DeliversEntries [] []
  | item {calls rest : List (Event α)} {v : Value} {entries : List (Value × Value)} (key : Value)
      (r : α) (h : Delivers calls v) (hs : DeliversEntries rest entries) :
      DeliversEntries (calls ++ .item key r :: rest) ((key, v) :: entries)

end

/-! ## The machine -/

/-- A container that was announced and has not ended. -/
inductive Pending where
  | sequence (size : Nat)
  /-- The keys that came, the latest one first. -/
  | mapping (size : Nat) (keys : List Value)

/-- The results that were not collected yet and the containers that are open, the latest ones
first. -/
structure Machine where
  results : List Value
  pending : List Pending

namespace Machine

variable {α : Type}

def empty : Machine := ⟨[], []⟩

def push (m : Machine) (v : Value) : Machine := { m with results := v :: m.results }

/-- Takes the last `n` results, the oldest one first, and what is below them. -/
def collect (m : Machine) (n : Nat) : Option (List Value × List Value) :=
  if n ≤ m.results.length then some ((m.results.take n).reverse, m.results.drop n) else none

/-- What the machine does at a call other than the last one. -/
def step (m : Machine) : Event α → Option Machine
  | .constant c => some (m.push c)
  | .startSequence n => some { m with pending := .sequence n :: m.pending }
  | .endSequence _ =>
    match m.pending with
    | .sequence n :: outer => (m.collect n).map fun (items, rest) => ⟨.list items :: rest, outer⟩
    | _ => none
  | .startMapping n => some { m with pending := .mapping n [] :: m.pending }
  | .item key _ =>
    match m.pending with
    | .mapping n keys :: outer => some { m with pending := .mapping n (key :: keys) :: outer }
    | _ => none
  | .endMapping =>
    match m.pending with
    | .mapping n keys :: outer =>
      if keys.length = n then
        (m.collect n).map fun (items, rest) =>
          ⟨.map (mergeEntries (keys.reverse.zip items)) :: rest, outer⟩
      else none
    | _ => none
  | .property key _ =>
    match m.results with
    | v :: rest => some { m with results := .property key v :: rest }
    | [] => none
  | .root _ => none

/-- The only result, where no container is open. -/
def answer (m : Machine) : Option Value :=
  match m.results, m.pending with
  | [v], [] => some v
  | _, _ => none

/-- Takes calls up to the one for the root, which has to be the last one. -/
def replay (m : Machine) : List (Event α) → Option Value
  | [] => none
  | [.root _] => m.answer
  | e :: rest => (m.step e).bind fun m => m.replay rest

theorem replay_cons {m m' : Machine} {e : Event α} (h : m.step e = some m')
    (rest : List (Event α)) : m.replay (e :: rest) = m'.replay rest := by
  rw [replay, h]
  · rfl
  · rintro r rfl
    cases h

theorem collect_append (items rest : List Value) (pending : List Pending) :
    collect ⟨items.reverse ++ rest, pending⟩ items.length = some (items, rest) := by
  have hlen : items.length = items.reverse.length := items.length_reverse.symm
  rw [collect, if_pos (by simp), hlen, List.take_left, List.drop_left, List.reverse_reverse]

theorem step_endSequence (items results : List Value) (outer : List Pending) (r : α) :
    step ⟨items.reverse ++ results, .sequence items.length :: outer⟩ (.endSequence r) =
      some ⟨.list items :: results, outer⟩ := by
  simp only [step, collect_append, Option.map_some]

theorem step_endMapping (entries : List (Value × Value)) (results : List Value)
    (outer : List Pending) :
    step ⟨(entries.map Prod.snd).reverse ++ results,
        .mapping entries.length (entries.map Prod.fst).reverse :: outer⟩
        (.endMapping : Event α) =
      some ⟨.map (mergeEntries entries) :: results, outer⟩ := by
  have hcollect := collect_append (entries.map Prod.snd) results
    (.mapping entries.length (entries.map Prod.fst).reverse :: outer)
  rw [List.length_map] at hcollect
  have hzip : (entries.map Prod.fst).zip (entries.map Prod.snd) = entries := by
    rw [List.zip_map', List.map_id'']
    exact fun _ => rfl
  simp only [step, hcollect, Option.map_some, List.length_reverse, List.length_map, if_true,
    List.reverse_reverse, hzip]

end Machine

/-- The calls for a value leave it on top of the results. -/
theorem Delivers.replay {α : Type} {calls : List (Event α)} {v : Value}
    (h : Delivers calls v) : ∀ (m : Machine) (rest : List (Event α)),
    m.replay (calls ++ rest) = (m.push v).replay rest := by
  -- Items come on top of the results that are there, entries leave their keys behind as well.
  refine @Delivers.rec α
    (fun calls v _ => ∀ (m : Machine) rest, m.replay (calls ++ rest) = (m.push v).replay rest)
    (fun calls items _ => ∀ (m : Machine) rest,
      m.replay (calls ++ rest) = { m with results := items.reverse ++ m.results }.replay rest)
    (fun calls entries _ => ∀ results n keys outer rest,
      Machine.replay ⟨results, .mapping n keys :: outer⟩ (calls ++ rest) =
        Machine.replay ⟨(entries.map Prod.snd).reverse ++ results,
          .mapping n ((entries.map Prod.fst).reverse ++ keys) :: outer⟩ rest)
    ?constant ?sequence ?mapping ?noItem ?plain ?property ?noEntry ?item calls v h
  case constant => exact fun c m rest => Machine.replay_cons rfl rest
  case sequence =>
    intro calls items _ r ih m rest
    rw [List.cons_append, Machine.replay_cons rfl, List.append_assoc, ih, List.singleton_append,
      Machine.replay_cons (Machine.step_endSequence items m.results m.pending r)]
    rfl
  case mapping =>
    intro calls entries _ ih m rest
    rw [List.cons_append, Machine.replay_cons rfl, List.append_assoc, ih, List.singleton_append,
      List.append_nil, Machine.replay_cons (Machine.step_endMapping entries m.results m.pending)]
    rfl
  case noItem => exact fun m rest => rfl
  case plain =>
    intro calls more v items _ _ ih ihs m rest
    rw [List.append_assoc, ih, ihs, List.reverse_cons, List.append_assoc]
    rfl
  case property =>
    intro calls more v items key r _ _ ih ihs m rest
    rw [List.append_assoc, ih, List.cons_append, Machine.replay_cons rfl, ihs,
      List.reverse_cons, List.append_assoc]
    rfl
  case noEntry => exact fun results n keys outer rest => rfl
  case item =>
    intro calls more v entries key r _ _ ih ihs results n keys outer rest
    rw [List.append_assoc, ih, List.cons_append, Machine.replay_cons rfl, ihs, List.map_cons,
      List.map_cons, List.reverse_cons, List.reverse_cons, List.append_assoc, List.append_assoc]
    rfl

/-- The calls of a walk are those that deliver a value, and the one for the root. -/
structure Encodes {α : Type} (trail : List (Event α)) (v : Value) : Prop where
  delivered : ∃ calls r, trail = calls ++ [.root r] ∧ Delivers calls v
  replayed : Machine.empty.replay trail = some v

theorem Delivers.encodes {α : Type} {calls : List (Event α)} {v : Value}
    (h : Delivers calls v) (r : α) : Encodes (calls ++ [.root r]) v :=
  ⟨⟨calls, r, rfl, h⟩, by rw [h.replay]; rfl⟩

/-- Calls encode one value at most. -/
theorem Encodes.unique {α : Type} {trail : List (Event α)} {v w : Value}
    (hv : Encodes trail v) (hw : Encodes trail w) : v = w :=
  Option.some.inj (hv.replayed.symm.trans hw.replayed)

/-! ## Walks over values -/

section Values

variable {α β : Type} (b : Builder α β)

theorem deliversItems_of_forall {items : List Value}
    (h : ∀ u ∈ items, ∀ rest vs, DeliversItems rest vs →
      DeliversItems (u.events b ++ rest) (u.fold .values :: vs)) :
    DeliversItems (Value.eventsAll b items) (items.map (Value.fold .values)) := by
  induction items with
  | nil => exact .nil
  | cons u rest ih =>
    exact h u List.mem_cons_self _ _ (ih fun w hw => h w (List.mem_cons_of_mem _ hw))

theorem deliversEntries_of_forall {entries : List (Value × Value)}
    (h : ∀ e ∈ entries, Delivers (e.2.events b) (e.2.fold .values)) :
    DeliversEntries (Value.eventsEntries b entries)
      (entries.map fun e => (e.1, e.2.fold .values)) := by
  induction entries with
  | nil => exact .nil
  | cons e rest ih =>
    exact .item e.1 _ (h e List.mem_cons_self) (ih fun f hf => h f (List.mem_cons_of_mem _ hf))

/-- The calls for an item deliver what it is built as. -/
theorem delivers_events {u : Value} (h : u.IsItem) :
    (u.isProperty = false → Delivers (u.events b) (u.fold .values)) ∧
      ∀ rest vs, DeliversItems rest vs →
        DeliversItems (u.events b ++ rest) (u.fold .values :: vs) := by
  -- An item that is no property is delivered like a value on its own.
  have plain : ∀ {u : Value}, Delivers (u.events b) (u.fold .values) →
      (u.isProperty = false → Delivers (u.events b) (u.fold .values)) ∧
        ∀ rest vs, DeliversItems rest vs →
          DeliversItems (u.events b ++ rest) (u.fold .values :: vs) :=
    fun told => ⟨fun _ => told, fun _ _ hs => .plain told hs⟩
  have sequence : ∀ {mk : List Value → Value} (_ : Value.IsSequence mk) {us : List Value},
      (∀ u ∈ us, ∀ rest vs, DeliversItems rest vs →
        DeliversItems (u.events b ++ rest) (u.fold .values :: vs)) →
      Delivers ((mk us).events b) ((mk us).fold .values) := by
    intro mk hm us hus
    have hlen : (us.map (Value.fold .values)).length = us.length := List.length_map _
    rw [Value.events_sequence b hm, Value.fold_sequence _ hm, ← hlen]
    exact .sequence (deliversItems_of_forall b hus) _
  induction h with
  | @leaf v hl =>
    refine plain ?_
    rw [Value.events_leaf b hl, Value.fold_leaf _ hl]
    exact .constant v
  | list _ ih => exact plain (sequence .list fun u hu => (ih u hu).2)
  | tuple _ ih => exact plain (sequence .tuple fun u hu => (ih u hu).2)
  | @map entries _ hp _ ih =>
    have told := deliversEntries_of_forall b fun e he => (ih e he).1 (hp e he)
    refine plain ?_
    rw [Value.events, Value.fold_map,
      ← List.length_map fun e : Value × Value => (e.1, e.2.fold .values)]
    exact .mapping told
  | @property k v _ hp _ ih =>
    refine ⟨(fun h => by cases h), fun rest vs hs => ?_⟩
    rw [Value.events, Value.fold_property, List.append_assoc, List.singleton_append]
    exact .property k _ (ih.1 hp) hs

variable {b}

/-- The calls of a walk over a document encode what the builder of values makes of it. -/
theorem Document.encodes_walk (hb : b.limit = none) {d : Document}
    (hl : Linked d.table d.root) {limit : Value} {s : β}
    (h : (d.walk b limit).outcome = .ok s) :
    ∃ v, (d.walk .values limit).outcome = .ok v ∧ Encodes (d.walk b limit).trail v := by
  obtain ⟨hd, hf, -⟩ := walk_told hb h
  refine ⟨d.unfolded.fold .values, ?_, ?_⟩
  · rw [walk_eq rfl hl hd hf]
    rfl
  · rw [walk_eq hb hl hd hf]
    exact ((delivers_events b hd.1).1 hd.2).encodes _

end Values

end LuaData
