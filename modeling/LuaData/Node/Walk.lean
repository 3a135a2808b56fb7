import LuaData.Node.Table
import LuaData.Text.Escape

/-
  The walk over a syntax tree. It hands a builder the data that the tree is a literal of. Of a
  chunk only the first statement is read. Texts inside of tables are escaped, keys are not.
-/

namespace LuaData

/-- A step of a walk over a tree: a call to the builder, or a note. -/
inductive Step (α : Type) where
  | event (e : Event α)
  | note (n : Note)

def Step.event? {α : Type} : Step α → Option (Event α)
  | .event e => some e
  | .note _ => none

def Step.note? {α : Type} : Step α → Option Note
  | .event _ => none
  | .note n => some n

namespace Node

variable {α β : Type}

def emit (e : Event α) : Run (Step α) Unit := .step (.event e)

/-! ## Weights -/

theorem heaviest_table_lt {table : List Value} {limit fields v : Value} {reach level : Nat}
    {fs : List Field} (hv : form table v = .table fields)
    (h : tableFields table limit reach level fields = .ok fs) (h0 : reach = 0) :
    heaviest (Table.ofFields table fs).nodes < v.weight := by
  refine Nat.lt_of_le_of_lt (heaviest_le fun w hw => ?_) (weight_part_lt (Or.inl hv))
  obtain ⟨f, hf, rfl⟩ := exists_of_mem_nodes hw
  exact Nat.le_of_lt (node_lt_of_tableFields h h0 f hf)

theorem lex_of_le_of_lt {r a a' b b' c c' : Nat} (ha : a ≤ a') (hb : b < b') :
    Prod.Lex (· < ·) (Prod.Lex (· < ·) (Prod.Lex (· < ·) (· < ·)))
      (r, a, b, c) (r, a', b', c') := by
  rcases Nat.lt_or_eq_of_le ha with h | rfl
  · exact Prod.Lex.right _ (Prod.Lex.left _ _ h)
  · exact Prod.Lex.right _ (Prod.Lex.right _ (Prod.Lex.left _ _ hb))

theorem lex_of_le_of_le_of_lt {r a a' b c c' : Nat} (ha : a ≤ a') (hc : c < c') :
    Prod.Lex (· < ·) (Prod.Lex (· < ·) (Prod.Lex (· < ·) (· < ·)))
      (r, a, b, c) (r, a', b, c') := by
  rcases Nat.lt_or_eq_of_le ha with h | rfl
  · exact Prod.Lex.right _ (Prod.Lex.left _ _ h)
  · exact Prod.Lex.right _ (Prod.Lex.right _ (Prod.Lex.right _ hc))

/-! ## The walk -/

mutual

/-- Visits a node, `level` being the number of tables around it. -/
def visit (b : Builder α β) (table : List Value) (limit : Value) (reach level : Nat)
    (v : Value) : Run (Step α) α :=
  match _hu : follow table reach v with
  | .error e => .fail e
  | .ok u =>
    match _hv : form table u with
    | .scalar => do
      let c ← .ofExcept (scalar table limit reach level v)
      emit (.constant c)
      return b.constant c
    | .table fields =>
      match _hf : tableFields table limit reach (level + 1) fields with
      | .ok fs => do
        .steps ((Table.notes table fs).map .note)
        visitTable b table limit (reach - tableCost) (level + 1) (Table.ofFields table fs)
      | .error e => .fail e
    | .statement exprs =>
      match _he : expressions table reach exprs with
      | .ok (.one node) => visit b table limit (reach - singleCost) level node
      | .ok (.several nodes) => do
        emit (.startSequence nodes.length)
        let results ← visitAll b table limit (reach - severalCost) level (b.drawn nodes)
        emit (.endSequence (b.sequence results))
        return b.sequence results
      | .error e => .fail e
    | .chunk none => .fail (fault table .emptyChunk v)
    | .chunk (some body) =>
      match _hb : firstStatement? table reach body with
      | .ok (some node) => visit b table limit (reach - chunkCost) level node
      | .ok none => .fail (fault table .emptyChunk v)
      | .error e => .fail e
    | .field => .fail (fault table .fieldOutsideTable v)
    | .unreadable => .fail .tagNotHashable
    | .other => .fail (misfit table .notReducible v)
termination_by (reach, v.weight, 0, 0)
decreasing_by
  · exact lex_of_reach (by decide) fun h0 =>
      eq_of_follow _hu h0 ▸ heaviest_table_lt _hv _hf h0
  · exact lex_of_reach (by decide) fun h0 => Nat.lt_of_le_of_lt (weight_one_le _he h0)
      (eq_of_follow _hu h0 ▸ weight_part_lt (Or.inr (Or.inl _hv)))
  · refine lex_of_reach (by decide) fun h0 => Nat.lt_of_le_of_lt ?_
      (eq_of_follow _hu h0 ▸ weight_part_lt (Or.inr (Or.inl _hv)))
    exact Nat.le_trans (heaviest_mono fun _ hw => b.mem_of_mem_drawn hw)
      (heaviest_several_le _he h0)
  · exact lex_of_reach (by decide) fun h0 => Nat.lt_trans (weight_firstStatement?_lt _hb h0)
      (eq_of_follow _hu h0 ▸ weight_part_lt (Or.inr (Or.inr _hv)))

/-- Visits the nodes of a statement. -/
def visitAll (b : Builder α β) (table : List Value) (limit : Value) (reach level : Nat) :
    List Value → Run (Step α) (List α)
  | [] => return []
  | v :: rest => do
    let result ← visit b table limit reach level v
    let results ← visitAll b table limit reach level rest
    return result :: results
termination_by items => (reach, heaviest items, 1, items.length)
decreasing_by
  · exact lex_of_le_of_lt (weight_le_heaviest List.mem_cons_self) (by decide)
  · exact lex_of_le_of_le_of_lt (heaviest_mono fun _ => List.mem_cons_of_mem _) (by simp)

/-- Visits the parts of a table. -/
def visitTable (b : Builder α β) (table : List Value) (limit : Value) (reach level : Nat) :
    Table → Run (Step α) α
  | .mapping entries => do
    emit (.startMapping entries.length)
    let results ← visitEntries b table limit reach level (b.drawn entries)
    emit .endMapping
    return b.mapping results
  | .sequence fields => do
    emit (.startSequence fields.length)
    let results ← visitFields b table limit reach level (b.drawn fields)
    emit (.endSequence (b.sequence results))
    return b.sequence results
termination_by parts => (reach, heaviest parts.nodes, 3, 0)
decreasing_by
  · refine lex_of_le_of_lt (heaviest_mono fun w hw => ?_) (by decide)
    obtain ⟨e, he, rfl⟩ := List.mem_map.1 hw
    exact List.mem_map_of_mem (b.mem_of_mem_drawn he)
  · refine lex_of_le_of_lt (heaviest_mono fun w hw => ?_) (by decide)
    obtain ⟨f, hf, rfl⟩ := List.mem_map.1 hw
    exact List.mem_map_of_mem (b.mem_of_mem_drawn hf)

/-- Visits the entries of a table that is a mapping. -/
def visitEntries (b : Builder α β) (table : List Value) (limit : Value) (reach level : Nat) :
    List (Value × Value) → Run (Step α) (List (Value × α))
  | [] => return []
  | (key, node) :: rest => do
    let result ← visitValue b table limit reach level node
    emit (.item key result)
    let results ← visitEntries b table limit reach level rest
    return (key, result) :: results
termination_by entries => (reach, heaviest (entries.map Prod.snd), 2, entries.length)
decreasing_by
  · exact lex_of_le_of_lt (weight_le_heaviest (by simp)) (by decide)
  · exact lex_of_le_of_le_of_lt (heaviest_mono fun _ hw => List.mem_cons_of_mem _ hw) (by simp)

/-- Visits the fields of a table that is a sequence. -/
def visitFields (b : Builder α β) (table : List Value) (limit : Value) (reach level : Nat) :
    List Field → Run (Step α) (List α)
  | [] => return []
  | .keyed key node :: rest => do
    let result ← visitValue b table limit reach level node
    emit (.property key result)
    let results ← visitFields b table limit reach level rest
    return b.property key result :: results
  | .positional node :: rest => do
    let result ← visitValue b table limit reach level node
    let results ← visitFields b table limit reach level rest
    return result :: results
termination_by fields => (reach, heaviest (fields.map Field.node), 2, fields.length)
decreasing_by
  · exact lex_of_le_of_lt (weight_le_heaviest (by simp [Field.node])) (by decide)
  · exact lex_of_le_of_le_of_lt (heaviest_mono fun _ hw => List.mem_cons_of_mem _ hw) (by simp)
  · exact lex_of_le_of_lt (weight_le_heaviest (by simp [Field.node])) (by decide)
  · exact lex_of_le_of_le_of_lt (heaviest_mono fun _ hw => List.mem_cons_of_mem _ hw) (by simp)

/-- Visits the node of a value in a table, where texts are escaped. -/
def visitValue (b : Builder α β) (table : List Value) (limit : Value) (reach level : Nat)
    (v : Value) : Run (Step α) α :=
  if (Document.deref table v).tag?.any Tag.isScalar then do
    let c ← .ofExcept (scalar table limit reach level v)
    emit (.constant c.escaped)
    return b.constant c.escaped
  else visit b table limit reach level v
termination_by (reach, v.weight, 1, 0)
decreasing_by exact lex_of_le_of_lt (Nat.le_refl _) (by decide)

end

/-- How a node is visited, without the proof that this ends. -/
theorem visit_eq (b : Builder α β) (table : List Value) (limit : Value) (reach level : Nat)
    (v : Value) :
    visit b table limit reach level v = (do
      match form table (← .ofExcept (follow table reach v)) with
      | .scalar => do
        let c ← .ofExcept (scalar table limit reach level v)
        emit (.constant c)
        return b.constant c
      | .table fields => do
        let fs ← .ofExcept (tableFields table limit reach (level + 1) fields)
        .steps ((Table.notes table fs).map .note)
        visitTable b table limit (reach - tableCost) (level + 1) (Table.ofFields table fs)
      | .statement exprs => do
        match ← .ofExcept (expressions table reach exprs) with
        | .one node => visit b table limit (reach - singleCost) level node
        | .several nodes => do
          emit (.startSequence nodes.length)
          let results ← visitAll b table limit (reach - severalCost) level (b.drawn nodes)
          emit (.endSequence (b.sequence results))
          return b.sequence results
      | .chunk none => .fail (fault table .emptyChunk v)
      | .chunk (some body) => do
        match ← .ofExcept (firstStatement? table reach body) with
        | some node => visit b table limit (reach - chunkCost) level node
        | none => .fail (fault table .emptyChunk v)
      | .field => .fail (fault table .fieldOutsideTable v)
      | .unreadable => .fail .tagNotHashable
      | .other => .fail (misfit table .notReducible v)) := by
  rw [visit]
  split
  · rename_i hu; rw [hu, Run.ofExcept_error_bind]
  · rename_i u hu
    rw [hu, Run.ofExcept_ok_bind]
    split
    case h_2 fields h =>
      simp only [h]
      split <;> rename_i hf <;> rw [hf] <;> rfl
    case h_3 exprs h =>
      simp only [h]
      split <;> rename_i he <;> rw [he] <;> rfl
    case h_5 body h =>
      simp only [h]
      split <;> rename_i hb <;> rw [hb] <;> rfl
    all_goals (rename_i h; simp only [h])

/-- Walks over a tree and hands the parts of its data to a builder. -/
def walk (b : Builder α β) (limit : Value) (tree : Document) : Run (Step α) β := do
  let result ← visit b tree.table limit fullReach 0 tree.root
  emit (.root result)
  .ofExcept (b.finish result)

/-- The value that a tree is the literal of. -/
def read (limit : Value) (tree : Document) : Run Note Value :=
  (walk .values limit tree).filterSteps Step.note?

end Node

end LuaData
