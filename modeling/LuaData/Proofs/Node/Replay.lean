import LuaData.Proofs.Node.Walk
import LuaData.Proofs.Walk.Replay

/-
  The calls of a walk over a tree as an encoding of what the tree is read as. Nothing is asked of
  the tree: a literal may hold any value, which is then one constant. The sizes that are
  announced come from the parts of the tree and the items from the visits of these parts, so
  each kind of container has a lemma of its own.
-/

namespace LuaData

namespace Node

variable {α β : Type} {b : Builder α β} {table : List Value} {limit : Value}

/-! ## Runs whose calls encode

A run is given for each builder. What it gives the builder of values is what its calls deliver to
every builder that draws all items. -/

def Encoding {ρ : Type → Type} (encodes : ∀ α : Type, List (Event α) → ρ Value → Prop)
    (x : ∀ α β : Type, Builder α β → Run (Step α) (ρ α)) (v : ρ Value) : Prop :=
  (x _ _ .values).outcome = .ok v ∧ ∀ {α β : Type} (b : Builder α β), b.limit = none →
    ∃ calls r, (x α β b).filterSteps Step.event? = ⟨calls, .ok r⟩ ∧ encodes α calls v

def Delivered (x : ∀ α β : Type, Builder α β → Run (Step α) α) (v : Value) : Prop :=
  Encoding (ρ := fun α => α) (fun _ => Delivers) x v

def DeliveredItems (x : ∀ α β : Type, Builder α β → Run (Step α) (List α))
    (items : List Value) : Prop :=
  Encoding (ρ := List) (fun _ => DeliversItems) x items

def DeliveredEntries (x : ∀ α β : Type, Builder α β → Run (Step α) (List (Value × α)))
    (entries : List (Value × Value)) : Prop :=
  Encoding (ρ := fun α => List (Value × α)) (fun _ => DeliversEntries) x entries

section Parts

variable {x : ∀ α β : Type, Builder α β → Run (Step α) α} {v : Value}
  {xs : ∀ α β : Type, Builder α β → Run (Step α) (List α)} {items : List Value}
  {es : ∀ α β : Type, Builder α β → Run (Step α) (List (Value × α))}
  {entries : List (Value × Value)}

/-- Only the runs for builders that draw all items matter. -/
theorem Delivered.congr {y : ∀ α β : Type, Builder α β → Run (Step α) α} (h : Delivered x v)
    (hxy : ∀ {α β : Type} (b : Builder α β), b.limit = none → y α β b = x α β b) :
    Delivered y v :=
  ⟨hxy .values rfl ▸ h.1, fun b hb => hxy b hb ▸ h.2 b hb⟩

theorem delivered_constant (c : Value) :
    Delivered (fun _ _ b => do emit (.constant c); return b.constant c) c :=
  ⟨rfl, fun _ _ => ⟨_, _, rfl, .constant c⟩⟩

theorem delivered_sequence (h : DeliveredItems xs items) {n : Nat} (hlen : items.length = n) :
    Delivered (fun α β b => do
      emit (.startSequence n)
      let results ← xs α β b
      emit (.endSequence (b.sequence results))
      return b.sequence results) (.list items) := by
  obtain ⟨hvalues, htold⟩ := h
  refine ⟨?_, fun b hb => ?_⟩
  · simp only [Run.outcome_bind, hvalues]
    rfl
  · obtain ⟨calls, rs, hrun, told⟩ := htold b hb
    refine ⟨_, b.sequence rs, ?_, .sequence told (b.sequence rs)⟩
    simp only [Run.filterSteps_bind, filterSteps_emit, Run.step_bind, hrun, Run.bind_ok, hlen]
    rfl

theorem delivered_mapping (h : DeliveredEntries es entries) {n : Nat}
    (hlen : entries.length = n) :
    Delivered (fun α β b => do
      emit (.startMapping n)
      let results ← es α β b
      emit .endMapping
      return b.mapping results) (.map (mergeEntries entries)) := by
  obtain ⟨hvalues, htold⟩ := h
  refine ⟨?_, fun b hb => ?_⟩
  · simp only [Run.outcome_bind, hvalues]
    rfl
  · obtain ⟨calls, rs, hrun, told⟩ := htold b hb
    refine ⟨_, b.mapping rs, ?_, .mapping told⟩
    simp only [Run.filterSteps_bind, filterSteps_emit, Run.step_bind, hrun, Run.bind_ok, hlen]
    rfl

theorem deliveredItems_nil : DeliveredItems (fun _ _ _ => return []) [] :=
  ⟨rfl, fun _ _ => ⟨_, _, rfl, .nil⟩⟩

theorem deliveredEntries_nil : DeliveredEntries (fun _ _ _ => return []) [] :=
  ⟨rfl, fun _ _ => ⟨_, _, rfl, .nil⟩⟩

theorem DeliveredItems.plain (h : Delivered x v) (hs : DeliveredItems xs items) :
    DeliveredItems (fun α β b => do
      let result ← x α β b
      let results ← xs α β b
      return result :: results) (v :: items) := by
  obtain ⟨hvalue, htold⟩ := h
  obtain ⟨hvalues, htolds⟩ := hs
  refine ⟨?_, fun b hb => ?_⟩
  · simp only [Run.outcome_bind, hvalue, hvalues]
    rfl
  · obtain ⟨calls, r, hrun, told⟩ := htold b hb
    obtain ⟨more, rs, hruns, tolds⟩ := htolds b hb
    refine ⟨_, r :: rs, ?_, .plain told tolds⟩
    simp only [Run.filterSteps_bind, hrun, hruns, Run.bind_ok, Run.pure_eq, Run.filterSteps_mk,
      List.filterMap_nil, List.append_nil]

theorem DeliveredItems.property (key : Value) (h : Delivered x v)
    (hs : DeliveredItems xs items) :
    DeliveredItems (fun α β b => do
      let result ← x α β b
      emit (.property key result)
      let results ← xs α β b
      return b.property key result :: results) (.property key v :: items) := by
  obtain ⟨hvalue, htold⟩ := h
  obtain ⟨hvalues, htolds⟩ := hs
  refine ⟨?_, fun b hb => ?_⟩
  · simp only [Run.outcome_bind, hvalue, hvalues]
    rfl
  · obtain ⟨calls, r, hrun, told⟩ := htold b hb
    obtain ⟨more, rs, hruns, tolds⟩ := htolds b hb
    refine ⟨_, b.property key r :: rs, ?_, .property key r told tolds⟩
    simp only [Run.filterSteps_bind, hrun, hruns, Run.bind_ok, filterSteps_emit, Run.step_bind,
      Run.pure_eq, Run.filterSteps_mk, List.filterMap_nil, List.append_nil]

theorem DeliveredEntries.item (key : Value) (h : Delivered x v)
    (hs : DeliveredEntries es entries) :
    DeliveredEntries (fun α β b => do
      let result ← x α β b
      emit (.item key result)
      let results ← es α β b
      return (key, result) :: results) ((key, v) :: entries) := by
  obtain ⟨hvalue, htold⟩ := h
  obtain ⟨hvalues, htolds⟩ := hs
  refine ⟨?_, fun b hb => ?_⟩
  · simp only [Run.outcome_bind, hvalue, hvalues]
    rfl
  · obtain ⟨calls, r, hrun, told⟩ := htold b hb
    obtain ⟨more, rs, hruns, tolds⟩ := htolds b hb
    refine ⟨_, (key, r) :: rs, ?_, .item key r told tolds⟩
    simp only [Run.filterSteps_bind, hrun, hruns, Run.bind_ok, filterSteps_emit, Run.step_bind,
      Run.pure_eq, Run.filterSteps_mk, List.filterMap_nil, List.append_nil]

end Parts

/-! ## Visits -/

theorem visitValue_delivered {reach level : Nat} {v : Value}
    (ih : ∀ r, (visit b table limit reach level v).outcome = .ok r →
      ∃ u, Delivered (fun _ _ b => visit b table limit reach level v) u)
    {r : α} (h : (visitValue b table limit reach level v).outcome = .ok r) :
    ∃ u, Delivered (fun _ _ b => visitValue b table limit reach level v) u := by
  simp only [visitValue] at h ⊢
  split at h
  · rename_i hs
    obtain ⟨c, hc, -⟩ := Run.exists_of_bind_ok h
    rw [Run.outcome_ofExcept] at hc
    simp only [if_pos hs, hc, Run.ofExcept_ok_bind]
    exact ⟨c.escaped, delivered_constant c.escaped⟩
  · rename_i hs
    simp only [if_neg hs]
    exact ih r h

theorem visitAll_delivered {reach level : Nat} {nodes : List Value}
    (ih : ∀ v ∈ nodes, ∀ r, (visit b table limit reach level v).outcome = .ok r →
      ∃ u, Delivered (fun _ _ b => visit b table limit reach level v) u)
    {rs : List α} (h : (visitAll b table limit reach level nodes).outcome = .ok rs) :
    ∃ items : List Value, items.length = nodes.length ∧
      DeliveredItems (fun _ _ b => visitAll b table limit reach level nodes) items := by
  induction nodes generalizing rs with
  | nil =>
    simp only [visitAll]
    exact ⟨[], rfl, deliveredItems_nil⟩
  | cons v rest ihr =>
    rw [visitAll] at h
    obtain ⟨r, hv, h⟩ := Run.exists_of_bind_ok h
    obtain ⟨rs', hrest, -⟩ := Run.exists_of_bind_ok h
    obtain ⟨u, told⟩ := ih v List.mem_cons_self r hv
    obtain ⟨items, hlen, tolds⟩ := ihr (fun w hw => ih w (List.mem_cons_of_mem _ hw)) hrest
    simp only [visitAll]
    exact ⟨u :: items, congrArg (· + 1) hlen, .plain told tolds⟩

theorem visitEntries_delivered {reach level : Nat} {nodes : List (Value × Value)}
    (ih : ∀ e ∈ nodes, ∀ r, (visitValue b table limit reach level e.2).outcome = .ok r →
      ∃ u, Delivered (fun _ _ b => visitValue b table limit reach level e.2) u)
    {rs : List (Value × α)}
    (h : (visitEntries b table limit reach level nodes).outcome = .ok rs) :
    ∃ entries : List (Value × Value), entries.length = nodes.length ∧
      DeliveredEntries (fun _ _ b => visitEntries b table limit reach level nodes) entries := by
  induction nodes generalizing rs with
  | nil =>
    simp only [visitEntries]
    exact ⟨[], rfl, deliveredEntries_nil⟩
  | cons e rest ihr =>
    obtain ⟨key, node⟩ := e
    rw [visitEntries] at h
    obtain ⟨r, hv, h⟩ := Run.exists_of_bind_ok h
    obtain ⟨⟨⟩, -, h⟩ := Run.exists_of_bind_ok h
    obtain ⟨rs', hrest, -⟩ := Run.exists_of_bind_ok h
    obtain ⟨u, told⟩ := ih (key, node) List.mem_cons_self r hv
    obtain ⟨entries, hlen, tolds⟩ := ihr (fun f hf => ih f (List.mem_cons_of_mem _ hf)) hrest
    simp only [visitEntries]
    exact ⟨(key, u) :: entries, congrArg (· + 1) hlen, .item key told tolds⟩

theorem visitFields_delivered {reach level : Nat} {fields : List Field}
    (ih : ∀ f ∈ fields, ∀ r, (visitValue b table limit reach level f.node).outcome = .ok r →
      ∃ u, Delivered (fun _ _ b => visitValue b table limit reach level f.node) u)
    {rs : List α} (h : (visitFields b table limit reach level fields).outcome = .ok rs) :
    ∃ items : List Value, items.length = fields.length ∧
      DeliveredItems (fun _ _ b => visitFields b table limit reach level fields) items := by
  induction fields generalizing rs with
  | nil =>
    simp only [visitFields]
    exact ⟨[], rfl, deliveredItems_nil⟩
  | cons f rest ihr =>
    have ihrest := fun g hg => ih g (List.mem_cons_of_mem f hg)
    cases f with
    | keyed key node =>
      rw [visitFields] at h
      obtain ⟨r, hv, h⟩ := Run.exists_of_bind_ok h
      obtain ⟨⟨⟩, -, h⟩ := Run.exists_of_bind_ok h
      obtain ⟨rs', hrest, -⟩ := Run.exists_of_bind_ok h
      obtain ⟨u, told⟩ := ih _ List.mem_cons_self r hv
      obtain ⟨items, hlen, tolds⟩ := ihr ihrest hrest
      simp only [visitFields]
      exact ⟨.property key u :: items, congrArg (· + 1) hlen, .property key told tolds⟩
    | positional node =>
      rw [visitFields] at h
      obtain ⟨r, hv, h⟩ := Run.exists_of_bind_ok h
      obtain ⟨rs', hrest, -⟩ := Run.exists_of_bind_ok h
      obtain ⟨u, told⟩ := ih _ List.mem_cons_self r hv
      obtain ⟨items, hlen, tolds⟩ := ihr ihrest hrest
      simp only [visitFields]
      exact ⟨u :: items, congrArg (· + 1) hlen, .plain told tolds⟩

theorem visitTable_delivered {reach level : Nat} {parts : Table}
    (ih : ∀ w ∈ parts.nodes, ∀ r, (visitValue b table limit reach level w).outcome = .ok r →
      ∃ u, Delivered (fun _ _ b => visitValue b table limit reach level w) u)
    (hb : b.limit = none)
    {r : α} (h : (visitTable b table limit reach level parts).outcome = .ok r) :
    ∃ u, Delivered (fun _ _ b => visitTable b table limit reach level parts) u := by
  cases parts with
  | mapping nodes =>
    rw [visitTable, Walk.drawn_eq hb] at h
    obtain ⟨⟨⟩, -, h⟩ := Run.exists_of_bind_ok h
    obtain ⟨rs, hrs, -⟩ := Run.exists_of_bind_ok h
    obtain ⟨entries, hlen, told⟩ :=
      visitEntries_delivered (fun e he => ih e.2 (List.mem_map_of_mem he)) hrs
    refine ⟨_, (delivered_mapping told hlen).congr fun b hb => ?_⟩
    rw [visitTable, Walk.drawn_eq hb]
  | sequence fields =>
    rw [visitTable, Walk.drawn_eq hb] at h
    obtain ⟨⟨⟩, -, h⟩ := Run.exists_of_bind_ok h
    obtain ⟨rs, hrs, -⟩ := Run.exists_of_bind_ok h
    obtain ⟨items, hlen, told⟩ :=
      visitFields_delivered (fun f hf => ih f.node (List.mem_map_of_mem hf)) hrs
    refine ⟨_, (delivered_sequence told hlen).congr fun b hb => ?_⟩
    rw [visitTable, Walk.drawn_eq hb]

/-- The notes about a table are no calls. -/
theorem Delivered.notes {x : ∀ α β : Type, Builder α β → Run (Step α) α} {v : Value}
    (h : Delivered x v) (notes : List Note) :
    Delivered (fun α β b => do .steps (notes.map .note); x α β b) v := by
  obtain ⟨hvalue, htold⟩ := h
  refine ⟨by rw [Run.outcome_bind, Run.outcome_steps, ok_bind, hvalue], fun b hb => ?_⟩
  obtain ⟨calls, r, hrun, told⟩ := htold b hb
  refine ⟨calls, r, ?_, told⟩
  rw [Run.filterSteps_bind, filterSteps_notes, hrun]
  rfl

/-- What a visit that succeeds has delivered. -/
theorem visit_delivered (hb : b.limit = none) : ∀ reach v level r,
    (visit b table limit reach level v).outcome = .ok r →
    ∃ u, Delivered (fun _ _ b => visit b table limit reach level v) u := by
  refine reach_induction fun reach v ih level r h => ?_
  simp only [visit_eq _ _ _ reach level v] at h ⊢
  obtain ⟨u, hu, h⟩ := Run.exists_of_bind_ok h
  rw [Run.outcome_ofExcept] at hu
  simp only [hu, Run.ofExcept_ok_bind]
  cases hform : form table u with
  | scalar =>
    rw [hform] at h
    obtain ⟨c, hc, -⟩ := Run.exists_of_bind_ok h
    rw [Run.outcome_ofExcept] at hc
    simp only [hc, Run.ofExcept_ok_bind]
    exact ⟨c, delivered_constant c⟩
  | table fields =>
    rw [hform] at h
    obtain ⟨fs, hfs, h⟩ := Run.exists_of_bind_ok h
    obtain ⟨⟨⟩, -, h⟩ := Run.exists_of_bind_ok h
    rw [Run.outcome_ofExcept] at hfs
    simp only [hfs, Run.ofExcept_ok_bind]
    obtain ⟨w, told⟩ := visitTable_delivered (fun w hw r hr => by
      obtain ⟨f, hf, rfl⟩ := exists_of_mem_nodes hw
      exact visitValue_delivered (ih tableCost f.node (by decide)
        (field_lighter hu hform hfs hf) (level + 1)) hr) hb h
    exact ⟨w, told.notes _⟩
  | statement exprs =>
    rw [hform] at h
    obtain ⟨es, hes, h⟩ := Run.exists_of_bind_ok h
    rw [Run.outcome_ofExcept] at hes
    simp only [hes, Run.ofExcept_ok_bind]
    cases es with
    | one node =>
      exact ih singleCost node (by decide) (one_lighter hu hform hes) level r h
    | several nodes =>
      simp only [Walk.drawn_eq hb] at h
      obtain ⟨⟨⟩, -, h⟩ := Run.exists_of_bind_ok h
      obtain ⟨rs, hrs, -⟩ := Run.exists_of_bind_ok h
      obtain ⟨items, hlen, told⟩ := visitAll_delivered (fun w hw =>
        ih severalCost w (by decide) (several_lighter hu hform hes hw) level) hrs
      refine ⟨_, (delivered_sequence told hlen).congr fun b hb => ?_⟩
      simp only [Walk.drawn_eq hb]
  | chunk body =>
    rw [hform] at h
    cases body with
    | none => cases h
    | some body =>
      obtain ⟨first, hfirst, h⟩ := Run.exists_of_bind_ok h
      rw [Run.outcome_ofExcept] at hfirst
      simp only [hfirst, Run.ofExcept_ok_bind]
      cases first with
      | none => cases h
      | some node =>
        exact ih chunkCost node (by decide) (first_lighter hu hform hfirst) level r h
  | _ => rw [hform] at h; cases h

/-- The calls of a walk over a tree encode the value that the tree is read as. -/
theorem encodes_walk (hb : b.limit = none) {tree : Document} {s : β}
    (h : (walk b limit tree).outcome = .ok s) :
    ∃ v, (read limit tree).outcome = .ok v ∧
      Encodes ((walk b limit tree).filterSteps Step.event?).trail v := by
  obtain ⟨r, hr, -⟩ := Run.exists_of_bind_ok h
  obtain ⟨v, hvalue, htold⟩ := visit_delivered hb fullReach tree.root 0 r hr
  obtain ⟨calls, r', hrun, told⟩ := htold b hb
  refine ⟨v, ?_, ?_⟩
  · rw [read, Run.outcome_filterSteps, walk, Run.outcome_bind, hvalue]
    rfl
  · rw [walk, Run.filterSteps_bind, hrun]
    exact told.encodes r'

/-! ## Values and trees -/

/-- A builder that draws all items is handed calls that encode the data: for a value what the
builder of values makes of it, for a tree what the tree is read as. -/
theorem walks_encode {α β : Type} (b : Builder α β) (hb : b.limit = none) (limit : Value) :
    (∀ d : Document, Document.Linked d.table d.root → ∀ s, (d.walk b limit).outcome = .ok s →
      ∃ v, (d.walk .values limit).outcome = .ok v ∧ Encodes (d.walk b limit).trail v) ∧
    ∀ (tree : Document) (s : β), (walk b limit tree).outcome = .ok s →
      ∃ v, (read limit tree).outcome = .ok v ∧
        Encodes ((walk b limit tree).filterSteps Step.event?).trail v :=
  ⟨fun _ hl _ h => Document.encodes_walk hb hl h, fun _ _ h => encodes_walk hb h⟩

/-- The calls of an outline: of a tuple with a property in a map, and of the tree of a table that
gives a name twice, which is an entry with the latter value. -/
theorem walks_encode_outline :
    let v : Value := .map [(.text "a", .tuple [.property (.int 2) .nil, .list []])]
    let tree := Document.ofValue (chunk [returnStatement [tableConstructor
      [namedField (.text "a") (numeral (.int 1)), namedField (.text "a") (numeral (.int 2))]]])
    Encodes ((Document.ofValue v).walk (.outline none) (.int 3)).trail
        (.map [(.text "a", .list [.property (.int 2) .nil, .list []])]) ∧
      Encodes ((walk (.outline none) (.int 3) tree).filterSteps Step.event?).trail
        (.map [(.text "a", .int 2)]) := by
  intro v tree
  have hvalue : ∀ {α β : Type} (b : Builder α β), b.limit = none →
      ((Document.ofValue v).walk b (.int 3)).outcome = b.finish (v.fold b) := by
    intro α β b hb
    have hitem : (Value.tuple [.property (.int 2) .nil, .list []]).IsItem := .tuple
      (List.forall_mem_cons.2 ⟨.property rfl rfl (.leaf rfl), List.forall_mem_singleton.2
        (.list fun u hu => absurd hu List.not_mem_nil)⟩)
    have hdata : v.IsData := ⟨Value.isItem_map.2 (List.forall_mem_singleton.2
      ⟨rfl, hitem, rfl⟩), rfl⟩
    have hfits : Walk.Fits (.int 3) 0 v.nesting :=
      (Document.fits_limitOf (m := (3 : Int))).2 (by decide)
    exact congrArg Run.outcome (Document.walk_ofValue hb hdata hfits)
  have htree : ∀ {α β : Type} (b : Builder α β), b.limit = none →
      (walk b (.int 3) tree).outcome =
        b.finish (b.mapping
          [(.text "a", b.constant (.int 1)), (.text "a", b.constant (.int 2))]) := by
    intro α β b hb
    have hfields : tableFields [] (.int 3) (fullReach - chunkCost - singleCost) 1
        (.list [namedField (.text "a") (numeral (.int 1)),
          namedField (.text "a") (numeral (.int 2))]) =
        .ok [.keyed (.text "a") (numeral (.int 1)), .keyed (.text "a") (numeral (.int 2))] := by
      have hkey : isKey (.text "a") = true := rfl
      have hc : (Value.int 3).checkLevel 1 = .ok () := rfl
      rw [tableFields, hc, ok_bind, elements, follow_nil, ok_bind]
      simp only [Value.elements?, Value.base, ok_bind, readFields, readField, follow_nil,
        fieldForm_namedField, scalar_of_form (scalarForm_identifier "a"), if_pos hkey]
      rfl
    have hparts : Table.ofFields []
        [.keyed (.text "a") (numeral (.int 1)), .keyed (.text "a") (numeral (.int 2))] =
        .mapping [(.text "a", numeral (.int 1)), (.text "a", numeral (.int 2))] := rfl
    have hscalar : ∀ n, (numeral n).tag?.any Tag.isScalar = true := fun n => by
      rw [numeral, tag?_node]; rfl
    simp only [walk, tree, Document.ofValue, visit_returned]
    rw [visit_eq, follow_nil, Run.ofExcept_ok_bind, form_tableConstructor]
    simp only [hfields, Run.ofExcept_ok_bind, hparts, visitTable, Walk.drawn_eq hb, visitEntries,
      visitValue, Document.deref_nil, if_pos (hscalar _), scalar_of_form (scalarForm_numeral _)]
    rfl
  obtain ⟨u, hu, hencodes⟩ := (walks_encode (.outline none) rfl (.int 3)).1 (.ofValue v)
    (Document.linked_ofValue v) _ (hvalue _ rfl)
  obtain ⟨w, hw, htwice⟩ := (walks_encode (.outline none) rfl (.int 3)).2 tree _ (htree _ rfl)
  have hu' : (Except.ok u : Except Failure Value) = .ok (v.fold .values) :=
    hu.symm.trans (hvalue _ rfl)
  have hw' : (Except.ok w : Except Failure Value) = .ok (.map (mergeEntries
      [(.text "a", .int 1), (.text "a", .int 2)])) := hw.symm.trans (htree _ rfl)
  cases hu'
  cases hw'
  refine ⟨hencodes, ?_⟩
  have hmerge : mergeEntries [(Value.text "a", Value.int 1), (.text "a", .int 2)] =
      [(.text "a", .int 2)] := by
    simp [mergeEntries, putEntry]
  rw [hmerge] at htwice
  exact htwice

end Node

end LuaData
