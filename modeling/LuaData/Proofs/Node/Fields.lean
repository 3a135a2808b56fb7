import LuaData.Proofs.Node.Names
import LuaData.Proofs.Node.Tables

/-
  Which calls a table constructor makes. It is a mapping if it has fields and each of them is
  named (`ByName`); the builder then gets all entries in their order, those given twice among
  them. Every other table is a sequence of the fields that are there: those that are nil in their
  places are left out, and the size that is announced is the number of the others. So such
  fields can be put anywhere into a sequence (`Padded`).
-/

namespace LuaData

open Document (deref)

/-! ## Runs over lists -/

namespace Run

variable {σ γ δ : Type} {f : γ → Run σ δ}

theorem outcome_mapM_ok {items : List γ} {rs : List δ}
    (h : List.Forall₂ (fun x r => (f x).outcome = .ok r) items rs) :
    (items.mapM f).outcome = .ok rs := by
  induction h with
  | nil => rfl
  | cons hr _ ih =>
    rw [List.mapM_cons, outcome_bind, hr, ok_bind, outcome_bind, ih]
    rfl

/-- A run over a list fails with the first item that fails. -/
theorem outcome_mapM_error {before after : List γ} {x : γ} {e : Failure}
    (ok : ∀ y ∈ before, ∃ r, (f y).outcome = .ok r) (error : (f x).outcome = .error e) :
    ((before ++ x :: after).mapM f).outcome = .error e := by
  induction before with
  | nil =>
    rw [List.nil_append, List.mapM_cons, outcome_bind, error]
    rfl
  | cons y rest ih =>
    obtain ⟨⟨r, hr⟩, hrest⟩ := List.forall_mem_cons.1 ok
    rw [List.cons_append, List.mapM_cons, outcome_bind, hr, ok_bind, outcome_bind, ih hrest]
    rfl

end Run

/-! ## Keys given twice -/

theorem Value.sameKey_of_text? {k l : Value} {s t : String} (hk : k.text? = some s)
    (hl : l.text? = some t) : k.sameKey l = (s == t) := by
  rw [Value.text?] at hk hl
  fun_induction Value.base k with
  | case1 name k ih =>
    rw [Value.sameKey]
    exact ih hk
  | case2 k plain =>
    fun_induction Value.base l with
    | case1 name l ih =>
      rw [Value.sameKey]
      · exact ih hl
      · exact plain
    | case2 l =>
      cases k <;> cases hk
      cases l <;> cases hl
      exact Value.sameKey_text s t

theorem eraseDups_concat {γ : Type} [BEq γ] [LawfulBEq γ] (xs : List γ) (x : γ) :
    (xs ++ [x]).eraseDups = if x ∈ xs then xs.eraseDups else xs.eraseDups ++ [x] := by
  have one : [x].eraseDups = [x] := by rw [List.eraseDups_cons]; rfl
  rw [List.eraseDups_append, List.removeAll]
  split
  · rename_i hmem
    rw [List.filter_singleton]
    simp [hmem]
  · rename_i hmem
    rw [List.filter_singleton]
    simp [hmem, one]

/-- What is left of some entries: each key once, where it was given first, with the value that was
given for it last. -/
structure LastWins {α : Type} (given left : List (Value × α)) : Prop where
  keys : left.map (fun e => e.1.text?) = (given.map fun e => e.1.text?).eraseDups
  values : ∀ s, lookupKey (.text s) left = lookupKey (.text s) given.reverse

section Merging

variable {α : Type} {key : Value} {value : α} {entries : List (Value × α)}

theorem keys_putEntry {s : String} (hkey : key.text? = some s)
    (texts : ∀ e ∈ entries, e.1.text?.isSome) :
    (putEntry key value entries).map (fun e => e.1.text?) =
      if some s ∈ entries.map (fun e => e.1.text?) then entries.map (fun e => e.1.text?)
      else entries.map (fun e => e.1.text?) ++ [some s] := by
  induction entries with
  | nil => simp [putEntry, hkey]
  | cons e rest ih =>
    obtain ⟨k, v⟩ := e
    obtain ⟨hk, hrest⟩ := List.forall_mem_cons.1 texts
    obtain ⟨t, ht⟩ := Option.isSome_iff_exists.1 hk
    have same : k.sameKey key = (t == s) := Value.sameKey_of_text? ht hkey
    have ht' : k.text? = some t := ht
    rw [putEntry, same]
    by_cases hts : t = s
    · subst hts
      simp [ht']
    · have hst : ¬ s = t := fun h => hts h.symm
      rw [if_neg (by simpa using hts), List.map_cons, ih hrest]
      simp only [List.map_cons, ht', List.mem_cons, Option.some.injEq, hst, false_or]
      split <;> rfl

theorem lookupKey_cons {s t : String} (hkey : key.text? = some s) :
    lookupKey (.text t) ((key, value) :: entries) =
      if s = t then some value else lookupKey (.text t) entries := by
  have same : key.sameKey (.text t) = (s == t) := Value.sameKey_of_text? hkey rfl
  rw [lookupKey, same]
  simp only [beq_iff_eq]

theorem lookupKey_putEntry {s t : String} (hkey : key.text? = some s)
    (texts : ∀ e ∈ entries, e.1.text?.isSome) :
    lookupKey (.text t) (putEntry key value entries) =
      if s = t then some value else lookupKey (.text t) entries := by
  induction entries with
  | nil => rw [putEntry, lookupKey_cons hkey]
  | cons e rest ih =>
    obtain ⟨k, v⟩ := e
    obtain ⟨hk, hrest⟩ := List.forall_mem_cons.1 texts
    obtain ⟨r, hr⟩ := Option.isSome_iff_exists.1 hk
    have same : k.sameKey key = (r == s) := Value.sameKey_of_text? hr hkey
    rw [putEntry, same]
    by_cases hrs : r = s
    · subst hrs
      rw [if_pos (beq_self_eq_true r), lookupKey_cons hr, lookupKey_cons hr]
      split <;> rfl
    · rw [if_neg (by simpa using hrs), lookupKey_cons hr, ih hrest, lookupKey_cons hr]
      by_cases hrt : r = t
      · rw [if_pos hrt, if_pos hrt, if_neg fun h => hrs (hrt.trans h.symm)]
      · rw [if_neg hrt, if_neg hrt]

end Merging

/-- Entries that are put one after the other under texts. -/
theorem lastWins_mergeEntries {α : Type} {given : List (Value × α)}
    (texts : ∀ e ∈ given, e.1.text?.isSome) : LastWins given (mergeEntries given) := by
  induction given using List.reverseRecOn with
  | nil => exact ⟨rfl, fun s => rfl⟩
  | append_singleton given e ih =>
    obtain ⟨hgiven, he⟩ := List.forall_mem_append.1 texts
    obtain ⟨s, hs⟩ := Option.isSome_iff_exists.1 (he e List.mem_cons_self)
    have ih := ih hgiven
    have merged : mergeEntries (given ++ [e]) = putEntry e.1 e.2 (mergeEntries given) := by
      rw [mergeEntries, List.foldl_append]
      rfl
    have left : ∀ e ∈ mergeEntries given, e.1.text?.isSome := by
      intro d hd
      have hmem : d.1.text? ∈ (given.map fun e => e.1.text?).eraseDups :=
        ih.keys ▸ List.mem_map_of_mem (f := fun e => e.1.text?) hd
      obtain ⟨c, hc, hcd⟩ := List.mem_map.1 (List.mem_eraseDups.1 hmem)
      rw [← hcd]
      exact hgiven c hc
    refine ⟨?_, fun t => ?_⟩
    · rw [merged, keys_putEntry hs left, ih.keys, List.map_append, List.map_singleton, hs,
        eraseDups_concat]
      simp only [List.mem_eraseDups]
    · rw [merged, lookupKey_putEntry hs left, ih.values t, List.reverse_append]
      exact (lookupKey_cons hs).symm

namespace Node

variable {α β : Type} {table : List Value} {limit : Value} {reach level : Nat} {v : Value}
  {items : List Value} {fs : List Field} {entries : List (Value × Value)}

/-! ## Mappings and sequences -/

/-- Some fields are these entries, each of them keyed by a text with the shape of a name. -/
structure ByName (fs : List Field) (entries : List (Value × Value)) : Prop where
  fields : fs = entries.map fun e => .keyed e.1 e.2
  nonempty : entries ≠ []
  named : ∀ e ∈ entries, ∃ s, e.1.text? = some s ∧ NameShaped s

theorem isNamed_iff {key : Value} : key.isNamed ↔ ∃ s, key.text? = some s ∧ NameShaped s := by
  rw [Value.isNamed, Option.any_eq_true]
  exact exists_congr fun s => and_congr_right fun _ => isName_iff

theorem byName_of_all (hne : fs ≠ []) (hall : fs.all Field.isNamed) :
    ByName fs (fs.filterMap Field.entry?) := by
  induction fs with
  | nil => exact absurd rfl hne
  | cons f rest ih =>
    obtain ⟨hf, hrest⟩ := Bool.and_eq_true_iff.1 hall
    cases f with
    | positional node => cases hf
    | keyed key node =>
      have hrest' : rest = (rest.filterMap Field.entry?).map (fun e => .keyed e.1 e.2) ∧
          ∀ e ∈ rest.filterMap Field.entry?, ∃ s, e.1.text? = some s ∧ NameShaped s := by
        by_cases hnil : rest = []
        · subst hnil
          exact ⟨rfl, fun e he => by cases he⟩
        · exact ⟨(ih hnil hrest).fields, (ih hnil hrest).named⟩
      exact ⟨congrArg (Field.keyed key node :: ·) hrest'.1, List.cons_ne_nil _ _,
        List.forall_mem_cons.2 ⟨isNamed_iff.1 hf, hrest'.2⟩⟩

theorem ByName.all (h : ByName fs entries) : (!fs.isEmpty && fs.all Field.isNamed) = true ∧
    fs.filterMap Field.entry? = entries := by
  obtain ⟨rfl, nonempty, named⟩ := h
  refine ⟨Bool.and_eq_true_iff.2 ⟨?_, List.all_eq_true.2 fun f hf => ?_⟩, ?_⟩
  · cases entries with
    | nil => exact absurd rfl nonempty
    | cons e rest => rfl
  · obtain ⟨e, he, rfl⟩ := List.mem_map.1 hf
    exact isNamed_iff.2 (named e he)
  · rw [List.filterMap_map]
    exact List.filterMap_some

theorem not_byName_of_positional {node : Value} (h : .positional node ∈ fs) :
    ¬ ∃ entries, ByName fs entries := by
  rintro ⟨entries, named⟩
  obtain ⟨e, -, he⟩ := List.mem_map.1 (named.fields ▸ h)
  cases he

theorem ofFields_of_byName (h : ByName fs entries) :
    Table.ofFields table fs = .mapping entries := by
  rw [Table.ofFields, if_pos h.all.1, h.all.2]

theorem ofFields_of_not_byName (h : ¬ ∃ entries, ByName fs entries) :
    Table.ofFields table fs = .sequence (fs.filter (!·.isAbsent table)) := by
  rw [Table.ofFields]
  split
  · rename_i hall
    obtain ⟨hne, hall⟩ := Bool.and_eq_true_iff.1 hall
    exact absurd ⟨_, byName_of_all (fun hnil => by rw [hnil] at hne; cases hne) hall⟩ h
  · rfl

/-! ## Calls -/

/-- The calls that a visit of a node makes. -/
def told (b : Builder α β) (table : List Value) (limit : Value) (reach level : Nat)
    (v : Value) : Run (Event α) α :=
  (visit b table limit reach level v).filterSteps Step.event?

/-- The calls that the visit of a value in a table makes. -/
def toldValue (b : Builder α β) (table : List Value) (limit : Value) (reach level : Nat)
    (v : Value) : Run (Event α) α :=
  (visitValue b table limit reach level v).filterSteps Step.event?

/-- The calls for an entry, after those for its value. -/
def entryOf (value : Value → Run (Event α) α) (e : Value × Value) :
    Run (Event α) (Value × α) := do
  let r ← value e.2
  .step (.item e.1 r)
  return (e.1, r)

/-- The calls for a mapping of some entries, in their order. -/
def mappingOf (b : Builder α β) (value : Value → Run (Event α) α)
    (entries : List (Value × Value)) : Run (Event α) α := do
  .step (.startMapping entries.length)
  let results ← (b.drawn entries).mapM (entryOf value)
  .step .endMapping
  return b.mapping results

/-- The calls for an item of a sequence: a keyed field is a property. -/
def itemOf (b : Builder α β) (value : Value → Run (Event α) α) : Field → Run (Event α) α
  | .keyed key node => do
    let r ← value node
    .step (.property key r)
    return b.property key r
  | .positional node => value node

/-- The calls for a sequence of some fields, in their order. -/
def sequenceOf (b : Builder α β) (value : Value → Run (Event α) α) (fields : List Field) :
    Run (Event α) α := do
  .step (.startSequence fields.length)
  let results ← (b.drawn fields).mapM (itemOf b value)
  .step (.endSequence (b.sequence results))
  return b.sequence results

variable {b : Builder α β}

theorem visitEntries_eq_mapM :
    (visitEntries b table limit reach level entries).filterSteps Step.event? =
      entries.mapM (entryOf (toldValue b table limit reach level)) := by
  induction entries with
  | nil => rw [visitEntries]; rfl
  | cons e rest ih =>
    obtain ⟨key, node⟩ := e
    rw [visitEntries, List.mapM_cons, entryOf]
    simp only [Run.filterSteps_bind, ih, bind_assoc, pure_bind]
    rfl

theorem visitFields_eq_mapM :
    (visitFields b table limit reach level fs).filterSteps Step.event? =
      fs.mapM (itemOf b (toldValue b table limit reach level)) := by
  induction fs with
  | nil => rw [visitFields]; rfl
  | cons f rest ih =>
    cases f with
    | keyed key node =>
      rw [visitFields, List.mapM_cons, itemOf]
      simp only [Run.filterSteps_bind, ih, bind_assoc, pure_bind]
      rfl
    | positional node =>
      rw [visitFields, List.mapM_cons, itemOf]
      simp only [Run.filterSteps_bind, ih]
      rfl

theorem mapping_calls :
    (visitTable b table limit reach level (.mapping entries)).filterSteps Step.event? =
      mappingOf b (toldValue b table limit reach level) entries := by
  rw [visitTable]
  simp only [Run.filterSteps_bind, visitEntries_eq_mapM]
  rfl

theorem sequence_calls :
    (visitTable b table limit reach level (.sequence fs)).filterSteps Step.event? =
      sequenceOf b (toldValue b table limit reach level) fs := by
  rw [visitTable]
  simp only [Run.filterSteps_bind, visitFields_eq_mapM]
  rfl

theorem outcome_entryOf_ok {value : Value → Run (Event α) α} {e : Value × Value} {r : α}
    (h : (value e.2).outcome = .ok r) : (entryOf value e).outcome = .ok (e.1, r) := by
  rw [entryOf, Run.outcome_bind, h]
  rfl

theorem outcome_entryOf_error {value : Value → Run (Event α) α} {e : Value × Value}
    {failure : Failure} (h : (value e.2).outcome = .error failure) :
    (entryOf value e).outcome = .error failure := by
  rw [entryOf, Run.outcome_bind, h]
  rfl

theorem outcome_mappingOf {value : Value → Run (Event α) α} :
    (mappingOf b value entries).outcome =
      ((b.drawn entries).mapM (entryOf value)).outcome >>= fun results =>
        .ok (b.mapping results) := by
  simp only [mappingOf, Run.outcome_bind, Run.outcome_step, ok_bind, Run.pure_eq]

/-! ## Table constructors -/

/-- A node is a table constructor that holds these nodes for its fields. -/
def Constructs (table : List Value) (reach : Nat) (v : Value) (items : List Value) : Prop :=
  ∃ u fields, follow table reach v = .ok u ∧ form table u = .table fields ∧
    elements table reach fields = .ok items

/-- A node is read as a table within the limit: it holds these nodes, which are read as these
fields. -/
structure ReadTable (table : List Value) (limit : Value) (reach level : Nat) (v : Value)
    (items : List Value) (fs : List Field) : Prop where
  node : Constructs table reach v items
  deep : limit.checkLevel (level + 1) = .ok ()
  read : List.Forall₂ (fun w f => readField table limit reach (level + 1) w = .ok f) items fs

theorem readFields_of_forall₂
    (h : List.Forall₂ (fun w f => readField table limit reach level w = .ok f) items fs) :
    readFields table limit reach level items = .ok fs := by
  induction h with
  | nil => rfl
  | cons hf _ ih => rw [readFields, hf, ok_bind, ih]; rfl

theorem ReadTable.tableFields (h : ReadTable table limit reach level v items fs) :
    ∃ u fields, follow table reach v = .ok u ∧ form table u = .table fields ∧
      tableFields table limit reach (level + 1) fields = .ok fs := by
  obtain ⟨⟨u, fields, hu, hform, hitems⟩, deep, read⟩ := h
  refine ⟨u, fields, hu, hform, ?_⟩
  rw [Node.tableFields, deep, ok_bind, hitems, ok_bind, readFields_of_forall₂ read]

theorem ReadTable.told_eq (h : ReadTable table limit reach level v items fs) :
    told b table limit reach level v =
      (visitTable b table limit (reach - tableCost) (level + 1)
        (Table.ofFields table fs)).filterSteps Step.event? := by
  obtain ⟨u, fields, hu, hform, hfs⟩ := h.tableFields
  rw [told, visit_eq, hu, Run.ofExcept_ok_bind, hform]
  simp only [hfs, Run.ofExcept_ok_bind, Run.filterSteps_bind, filterSteps_notes]
  rfl

theorem ReadTable.told_mapping (h : ReadTable table limit reach level v items fs)
    (named : ByName fs entries) : told b table limit reach level v =
      mappingOf b (toldValue b table limit (reach - tableCost) (level + 1)) entries := by
  rw [h.told_eq, ofFields_of_byName named, mapping_calls]

theorem ReadTable.told_sequence (h : ReadTable table limit reach level v items fs)
    (unnamed : ¬ ∃ entries, ByName fs entries) : told b table limit reach level v =
      sequenceOf b (toldValue b table limit (reach - tableCost) (level + 1))
        (fs.filter (!·.isAbsent table)) := by
  rw [h.told_eq, ofFields_of_not_byName unnamed, sequence_calls]

/-! ## Fields for nil -/

/-- The nodes of `more` are the nodes of `items` in their order and, between them, nodes of fields
that are nil in their places. -/
inductive Padded (table : List Value) (reach : Nat) : List Value → List Value → Prop
  | done : Padded table reach [] []
  | keep {w : Value} {items more : List Value} (h : Padded table reach items more) :
      Padded table reach (w :: items) (w :: more)
  | pad {w u node : Value} {items more : List Value} (seen : follow table reach w = .ok u)
      (form : fieldForm u = .positional node) (nil : (deref table node).tag? = some .nilLiteral)
      (h : Padded table reach items more) : Padded table reach items (w :: more)

/-- Fields that are nil in their places are read and left out, and are not named. -/
theorem Padded.read {more : List Value} (h : Padded table reach items more)
    (read : List.Forall₂ (fun w f => readField table limit reach level w = .ok f) items fs) :
    ∃ gs, List.Forall₂ (fun w f => readField table limit reach level w = .ok f) more gs ∧
      gs.filter (!·.isAbsent table) = fs.filter (!·.isAbsent table) ∧
      (gs = fs ∨ ∃ node, .positional node ∈ gs) := by
  induction h generalizing fs with
  | done => exact ⟨fs, read, rfl, Or.inl rfl⟩
  | keep _ ih =>
    cases read with
    | @cons _ f _ rest hf hrest =>
      obtain ⟨gs, hgs, present, unnamed⟩ := ih hrest
      refine ⟨f :: gs, .cons hf hgs, ?_, ?_⟩
      · rw [List.filter_cons, List.filter_cons, present]
      · rcases unnamed with rfl | ⟨node, hnode⟩
        · exact Or.inl rfl
        · exact Or.inr ⟨node, List.mem_cons_of_mem f hnode⟩
  | @pad w u node _ _ seen form nil _ ih =>
    obtain ⟨gs, hgs, present, -⟩ := ih read
    have hw : readField table limit reach level w = .ok (.positional node) := by
      rw [readField, seen, ok_bind]
      simp only [form]
    have absent : (Field.positional node).isAbsent table = true :=
      decide_eq_true (Value.tagText?_of_tag? nil)
    refine ⟨.positional node :: gs, .cons hw hgs, ?_, Or.inr ⟨node, List.mem_cons_self⟩⟩
    rw [List.filter_cons, absent, present]
    rfl

/-- A sequence makes the same calls with more fields for nil. -/
theorem ReadTable.told_padded {w : Value} {more : List Value}
    (h : ReadTable table limit reach level v items fs) (unnamed : ¬ ∃ entries, ByName fs entries)
    (padded : Padded table reach items more) (node : Constructs table reach w more) :
    told b table limit reach level w = told b table limit reach level v := by
  obtain ⟨gs, hgs, present, same⟩ := padded.read h.read
  have hw : ReadTable table limit reach level w more gs := ⟨node, h.deep, hgs⟩
  have unnamed' : ¬ ∃ entries, ByName gs entries := by
    rcases same with rfl | ⟨node, hnode⟩
    · exact unnamed
    · exact not_byName_of_positional hnode
  rw [hw.told_sequence unnamed', h.told_sequence unnamed, present]

/-! ## Tables -/

/-- What a table constructor within the limit tells a builder if all of its fields are read. It is
a mapping if and only if it has fields and all are named, with all entries in their order; the
values that are built again then have each key in the first of its positions with the last of its
values, unless the visit of some value fails, also of one that another takes the place of. All
other tables are sequences of the fields that are not nil in their places, and more such fields
change nothing. -/
theorem table_calls (h : ReadTable table limit reach level v items fs) :
    (∀ {α β : Type} (b : Builder α β),
      ((∃ size, (told b table limit reach level v).trail.head? = some (.startMapping size)) ↔
        ∃ entries, ByName fs entries) ∧
      (∀ entries, ByName fs entries → told b table limit reach level v =
        mappingOf b (toldValue b table limit (reach - tableCost) (level + 1)) entries) ∧
      ((¬ ∃ entries, ByName fs entries) →
        told b table limit reach level v =
          sequenceOf b (toldValue b table limit (reach - tableCost) (level + 1))
            (fs.filter (!·.isAbsent table)) ∧
        ∀ w more, Padded table reach items more → Constructs table reach w more →
          told b table limit reach level w = told b table limit reach level v)) ∧
    ∀ entries, ByName fs entries →
      let value w := (toldValue .values table limit (reach - tableCost) (level + 1) w).outcome
      (∀ given, List.Forall₂ (fun e d => d.1 = e.1 ∧ value e.2 = .ok d.2) entries given →
        ∃ left, (told .values table limit reach level v).outcome = .ok (.map left) ∧
          LastWins given left) ∧
      ∀ before e after failure, entries = before ++ e :: after →
        (∀ d ∈ before, ∃ r, value d.2 = .ok r) → value e.2 = .error failure →
        (told .values table limit reach level v).outcome = .error failure := by
  refine ⟨fun b => ⟨⟨?_, ?_⟩, fun entries => h.told_mapping, fun unnamed =>
    ⟨h.told_sequence unnamed, fun w more => h.told_padded unnamed⟩⟩, ?_⟩
  · rintro ⟨size, hsize⟩
    by_contra unnamed
    rw [h.told_sequence unnamed] at hsize
    cases hsize
  · rintro ⟨entries, named⟩
    exact ⟨entries.length, by rw [h.told_mapping named]; rfl⟩
  · intro entries named value
    rw [h.told_mapping named, outcome_mappingOf, Walk.drawn_eq (b := .values) rfl]
    refine ⟨fun given results => ⟨mergeEntries given, ?_, ?_⟩, ?_⟩
    · have each : List.Forall₂ (fun e d => (entryOf (toldValue .values table limit
          (reach - tableCost) (level + 1)) e).outcome = .ok d) entries given :=
        results.imp fun e d h => (outcome_entryOf_ok h.2).trans (by rw [← h.1])
      rw [Run.outcome_mapM_ok each]
      rfl
    · refine lastWins_mergeEntries fun d hd => ?_
      obtain ⟨e, he, hkey, -⟩ := exists_part_of_mem_results results d hd
      obtain ⟨s, hs, -⟩ := named.named e he
      rw [hkey, hs]
      rfl
    · rintro before e after failure rfl ok error
      rw [Run.outcome_mapM_error (fun d hd => ?_) (outcome_entryOf_error error)]
      · rfl
      · obtain ⟨r, hr⟩ := ok d hd
        exact ⟨_, outcome_entryOf_ok hr⟩

theorem constructs_tableConstructor (nodes : List Value) :
    Constructs [] reach (tableConstructor nodes) nodes :=
  ⟨_, _, follow_nil _ _, form_tableConstructor [] nodes, by rw [elements, follow_nil]; rfl⟩

theorem readField_positionalField (node : Value) :
    readField [] limit reach level (positionalField node) = .ok (.positional node) := by
  rw [readField, follow_nil, ok_bind, fieldForm_positionalField]

theorem readField_namedField (s : String) (node : Value) :
    readField [] limit reach level (namedField (.text s) node) = .ok (.keyed (.text s) node) := by
  rw [readField, follow_nil, ok_bind, fieldForm_namedField]
  simp only [scalar_of_form (scalarForm_identifier s)]
  rfl

theorem toldValue_numeral (c : Value) : toldValue b [] limit reach level (numeral c) =
    ⟨[.constant c.escaped], .ok (b.constant c.escaped)⟩ := by
  have hscalar : (numeral c).tag?.any Tag.isScalar = true := by
    rw [numeral, tag?_node]
    rfl
  rw [toldValue, visitValue, Document.deref_nil, if_pos hscalar,
    scalar_of_form (scalarForm_numeral _)]
  rfl

/-- A mapping with a key that is given twice, and a sequence with nil before and after its item. -/
theorem table_calls_twice :
    let one := numeral (.int 1)
    let twice := tableConstructor [namedField (.text "x") one,
      namedField (.text "y") (numeral (.int 2)), namedField (.text "x") (numeral (.int 3))]
    (∃ left, (told .values [] (.int 1) fullReach 0 twice).outcome = .ok (.map left) ∧
      LastWins [(.text "x", .int 1), (.text "y", .int 2), (.text "x", .int 3)] left) ∧
    told .values [] (.int 1) fullReach 0
        (tableConstructor [positionalField nil, positionalField one, positionalField nil]) =
      told .values [] (.int 1) fullReach 0 (tableConstructor [positionalField one]) := by
  intro one twice
  have value : ∀ n, (toldValue .values [] (.int 1) (fullReach - tableCost) 1
      (numeral (.int n))).outcome = .ok (.int n) := by
    intro n
    rw [toldValue_numeral]
    rfl
  constructor
  · let fields : List Field := [.keyed (.text "x") one, .keyed (.text "y") (numeral (.int 2)),
      .keyed (.text "x") (numeral (.int 3))]
    have read : ReadTable [] (.int 1) fullReach 0 twice _ fields :=
      ⟨constructs_tableConstructor _, rfl, .cons (readField_namedField _ _)
        (.cons (readField_namedField _ _) (.cons (readField_namedField _ _) .nil))⟩
    have named : ByName fields [(.text "x", one), (.text "y", numeral (.int 2)),
        (.text "x", numeral (.int 3))] := by
      refine ⟨rfl, List.cons_ne_nil _ _, fun e he => isNamed_iff.1 ?_⟩
      revert e
      decide
    exact ((table_calls read).2 _ named).1 _
      (.cons ⟨rfl, value 1⟩ (.cons ⟨rfl, value 2⟩ (.cons ⟨rfl, value 3⟩ .nil)))
  · have read : ReadTable [] (.int 1) fullReach 0 (tableConstructor [positionalField one]) _
        [.positional one] :=
      ⟨constructs_tableConstructor _, rfl, .cons (readField_positionalField one) .nil⟩
    have unnamed := not_byName_of_positional (List.mem_singleton_self (Field.positional one))
    have absent : (deref [] nil).tag? = some .nilLiteral := by
      rw [Document.deref_nil, nil, tag?_node]
    exact (((table_calls read).1 .values).2.2 unnamed).2 _ _
      (.pad (follow_nil _ _) (fieldForm_positionalField _) absent
        (.keep (.pad (follow_nil _ _) (fieldForm_positionalField _) absent .done)))
      (constructs_tableConstructor _)

end Node

end LuaData
