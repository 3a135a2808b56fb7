import LuaData.Proofs.Node.Grammar
import LuaData.Proofs.Node.ReadBack
import LuaData.Proofs.Node.Writable
import LuaData.Proofs.Text.Escape

/-
  What tables come to. Inside of a table only tables and constants are read: a list that a table
  comes to has no nil in it, a map is not empty and its keys have the shape of names, a text has
  no newline in it (`Value.Tabled`). Statements and chunks are around tables; a statement can
  come to a list as well, of which less is true (`ComesTo`). All of it is data that can be
  written again.
-/

namespace LuaData

open Relation (ReflTransGen TransGen)
open Document (Part deref)
open Walk (isPropertyKey isMapKey)

/-! ## Typed trees -/

/-- Whether a constant is of the kind that nodes with a tag hold, and of its exact type. -/
def Tag.holds : Tag → Value → Bool
  | .booleanLiteral, .bool _ => true
  | .numericLiteral, .number _ => true
  | .stringLiteral, .text _ => true
  | .identifier, .text _ => true
  | _, _ => false

theorem Tag.isLeaf_of_holds {tag : Tag} {c : Value} (h : tag.holds c) : c.isLeaf ∧ c ≠ .nil := by
  cases c with
  | bool | number | text => exact ⟨rfl, fun h => by cases h⟩
  | _ => cases tag <;> cases h

theorem Tag.text_of_ofText? {s : String} {tag : Tag} (h : Tag.ofText? s = some tag) :
    tag.text = s := by
  have hfound : all.find? (fun t => t.text = s) = some tag := h
  simpa using List.find?_some hfound

theorem Value.tagText?_of_tag? {v : Value} {tag : Tag} (h : v.tag? = some tag) :
    v.tagText? = some tag.text := by
  obtain ⟨s, hs, hs'⟩ := Option.bind_eq_some_iff.1 h
  rw [hs, Tag.text_of_ofText? hs']

/-! ## Values in tables -/

namespace Value

/-- What the fields of a table come to, properties among them. -/
inductive Tabled : Value → Prop
  | leaf {c : Value} (h : c.isLeaf) (line : ∀ s, c = .text s → '\n' ∉ s.toList) : Tabled c
  | list {items : List Value} (present : .nil ∉ items) (h : ∀ v ∈ items, Tabled v) :
      Tabled (.list items)
  | map {entries : List (Value × Value)} (some : entries ≠ [])
      (named : ∀ e ∈ entries, isMapKey e.1 ∧ e.1.isNamed)
      (plain : ∀ e ∈ entries, e.2.isProperty = false) (h : ∀ e ∈ entries, Tabled e.2) :
      Tabled (.map entries)
  | property {k v : Value} (key : isPropertyKey k) (plain : v.isProperty = false) (h : Tabled v) :
      Tabled (.property k v)

theorem Tabled.isItem {v : Value} (h : v.Tabled) : v.IsItem := by
  induction h with
  | leaf h => exact .leaf h
  | list _ _ ih => exact .list ih
  | map _ named plain _ ih => exact .map (fun e he => (named e he).1) plain ih
  | property key plain _ ih => exact .property key plain ih

theorem isProperty_of_isContainer {v : Value} (h : v.isContainer) : v.isProperty = false := by
  cases v <;> first | rfl | cases h

theorem newline_notMem_replaceNewlines (cs : List Char) : '\n' ∉ replaceNewlines cs := by
  intro h
  obtain ⟨c, -, h⟩ := List.mem_flatMap.1 h
  split at h
  · simp at h
  · rename_i hc
    exact hc (List.mem_singleton.1 h).symm

theorem tabled_escaped {c : Value} (h : c.isLeaf) : c.escaped.Tabled := by
  cases c with
  | text s =>
    refine .leaf rfl fun t ht => ?_
    cases ht
    rw [toList_escapeText]
    exact newline_notMem_replaceNewlines _
  | nil | bool | number => exact .leaf rfl fun _ ht => by cases ht
  | _ => cases h

theorem eq_nil_of_escaped {c : Value} (h : c.isLeaf) (hnil : c.escaped = .nil) : c = .nil := by
  cases c with
  | nil => rfl
  | bool | number | text => cases hnil
  | _ => cases h

end Value

theorem putEntry_ne_nil {α : Type} (key : Value) (value : α) (entries : List (Value × α)) :
    putEntry key value entries ≠ [] := by
  cases entries with
  | nil => exact List.cons_ne_nil _ _
  | cons e rest =>
    rw [putEntry]
    split <;> exact List.cons_ne_nil _ _

/-- Some entries are left if some are put. -/
theorem mergeEntries_ne_nil {α : Type} {entries : List (Value × α)} (h : entries ≠ []) :
    mergeEntries entries ≠ [] := by
  rw [mergeEntries, ← List.dropLast_concat_getLast h, List.foldl_append]
  exact putEntry_ne_nil _ _ _

namespace Node

variable {table : List Value} {limit : Value} {reach level : Nat} {v w r : Value}

/-- All constants in the nodes that a node has inside of it are of the kinds that those nodes
hold. -/
def Typed (table : List Value) (v : Value) : Prop :=
  ∀ w c, ReflTransGen (Part table) v w → scalarForm (deref table w) = .constant c →
    (deref table w).tag?.any (·.holds c)

theorem Typed.part (h : Typed table v) (hw : ReflTransGen (Part table) v w) : Typed table w :=
  fun x c hx => h x c (hw.trans hx)

theorem Typed.holds (h : Typed table v) {c : Value}
    (hc : scalarForm (deref table v) = .constant c) : c.isLeaf ∧ c ≠ .nil := by
  obtain ⟨tag, -, holds⟩ := (Option.any_eq_true _ _).1 (h v c .refl hc)
  exact tag.isLeaf_of_holds holds

theorem Typed.exact (h : Typed table v) : Exact table v :=
  fun _ _ hw hc => ((h.part hw).holds hc).1

/-- Only the node for nil stands for nil. -/
theorem Typed.tag?_of_scalar_nil (h : Typed table v)
    (hs : scalar table limit reach level v = .ok .nil) :
    (deref table v).tag? = some .nilLiteral := by
  rw [scalar_eq] at hs
  obtain ⟨u, hu, hs⟩ := exists_of_bind_ok hs
  obtain rfl := eq_deref_of_follow hu
  cases hform : scalarForm (deref table v) with
  | nil => exact scalarForm_eq_nil.1 hform
  | constant c =>
    obtain ⟨hleaf, hne⟩ := h.holds hform
    rw [hform] at hs
    simp only [Document.unfold_leaf hleaf] at hs
    exact absurd (Except.ok.inj hs) hne
  | negation w =>
    rw [hform] at hs
    obtain ⟨-, -, hs⟩ := exists_of_bind_ok hs
    obtain ⟨c, -, hs⟩ := exists_of_bind_ok hs
    split at hs <;> cases hs
  | _ => rw [hform] at hs; cases hs

/-- A node that a visit goes on to is inside of the node, or a single character of a text. -/
theorem Leads.below (h : Leads table v w) : TransGen (Part table) v w ∨ ∃ s, w = .text s := by
  have part : ∀ {x y}, x ∈ (deref table v).parts → y ∈ (deref table x).parts →
      TransGen (Part table) v y := fun hx hy => .tail (.single hx) hy
  cases h with
  | @field fields x items form list mem value =>
    have hx := mem_parts_of_form (Or.inl form)
    have hw : w ∈ (deref table x).parts := mem_parts_of_fieldForm
      (value.imp_left fun ⟨k, h⟩ => ⟨k, Or.inr h⟩)
    rcases Value.mem_parts_of_elements? list mem with hmem | ⟨s, rfl⟩
    · exact Or.inl (.tail (part hx hmem) hw)
    · cases hw
  | @expression exprs form mem =>
    have hx := mem_parts_of_form (Or.inr (Or.inl form))
    have hw : w ∈ (deref table exprs).parts ∨ ∃ s, w = .text s := by
      rw [expressionNodes] at mem
      split at mem
      · rename_i items hi
        split at mem
        · exact Value.mem_parts_of_atZero? (Option.mem_toList.1 mem)
        · exact Value.mem_parts_of_elements? hi mem
      · cases mem
    exact hw.imp_left (part hx)
  | first form first =>
    exact Or.inl (part (mem_parts_of_form (Or.inr (Or.inr form))) (Value.mem_parts_of_first? first))

theorem typed_leaf (h : v.isLeaf) : Typed table v := by
  intro w c hw hc
  rcases hw.cases_head with rfl | ⟨x, hx, -⟩
  · cases v <;> first | cases hc | cases h
  · cases v <;> first | (cases h; done) | cases hx

theorem Typed.of_leads (h : Typed table v) (hw : Leads table v w) : Typed table w := by
  rcases hw.below with hr | ⟨s, rfl⟩
  · exact h.part hr.to_reflTransGen
  · exact typed_leaf rfl

/-! ## Tables and statements -/

/-- Whether a node holds statements or expressions of one. -/
def Form.isStatement : Form → Bool
  | .statement _ | .chunk _ => true
  | _ => false

/-- A visit of `v` comes to no statement and to no chunk. -/
def Bare (table : List Value) (v : Value) : Prop :=
  ∀ w, ReflTransGen (Leads table) v w → (form table (deref table w)).isStatement = false

/-- No statement and no chunk is inside of a table that a visit of `v` comes to. -/
def TablesApart (table : List Value) (v : Value) : Prop :=
  ∀ t fields w, ReflTransGen (Leads table) v t → form table (deref table t) = .table fields →
    TransGen (Leads table) t w → (form table (deref table w)).isStatement = false

theorem Bare.of_leads (h : Bare table v) (hw : Leads table v w) : Bare table w :=
  fun x hx => h x (.head hw hx)

theorem TablesApart.of_leads (h : TablesApart table v) (hw : Leads table v w) :
    TablesApart table w :=
  fun t fields x ht => h t fields x (.head hw ht)

theorem TablesApart.bare (h : TablesApart table v) {fields : Value}
    (form : form table (deref table v) = .table fields) (hw : Leads table v w) : Bare table w :=
  fun x hx => h v fields x .refl form (.head' hw hx)

/-! ## What tables come to -/

/-- What a node inside of a table comes to: nil only if it is the node for nil. -/
structure Entered (table : List Value) (v r : Value) : Prop where
  tabled : r.Tabled
  plain : r.isProperty = false
  present : r = .nil → (deref table v).tag? = some .nilLiteral

theorem entered_of_visitValue (typed : Typed table v)
    (ih : ∀ r, (visit .values table limit reach level v).outcome = .ok r →
      (deref table v).tag?.any Tag.isScalar = false → r.Tabled ∧ r.isContainer)
    (h : (visitValue .values table limit reach level v).outcome = .ok r) :
    Entered table v r := by
  rw [visitValue] at h
  split at h
  · obtain ⟨c, hc, h⟩ := Run.exists_of_bind_ok h
    rw [Run.outcome_ofExcept] at hc
    cases h
    have hleaf := isLeaf_of_scalar typed.exact hc
    exact ⟨Value.tabled_escaped hleaf, (Value.isData_of_isLeaf (isLeaf_escaped hleaf)).2,
      fun hnil => typed.tag?_of_scalar_nil (Value.eq_nil_of_escaped hleaf hnil ▸ hc)⟩
  · rename_i hs
    obtain ⟨tabled, container⟩ := ih r h (Bool.eq_false_iff.2 hs)
    exact ⟨tabled, Value.isProperty_of_isContainer container,
      fun hnil => by rw [hnil] at container; cases container⟩

section Fields

variable {fs : List Field} (keys : ∀ f ∈ fs, f.Exact table)
  (each : ∀ f ∈ fs, ∀ s, (visitValue .values table limit reach level f.node).outcome = .ok s →
    Entered table f.node s)

include keys each

/-- Named fields come to a map. -/
theorem tabled_of_visitMapping (hne : fs ≠ []) (hall : fs.all Field.isNamed)
    (h : (visitTable .values table limit reach level
      (.mapping (fs.filterMap Field.entry?))).outcome = .ok r) : r.Tabled ∧ r.isContainer := by
  obtain ⟨rs, rfl, results⟩ := visitMapping_results h
  rw [Walk.drawn_eq (b := .values) rfl] at results
  have entry : ∀ e ∈ rs, (isMapKey e.1 ∧ e.1.isNamed) ∧ (e.2.Tabled ∧ e.2.isProperty = false) := by
    intro e he
    obtain ⟨⟨key, node⟩, hmem, hkey, hs⟩ := exists_part_of_mem_results results e he
    obtain ⟨f, hf, hentry⟩ := List.mem_filterMap.1 hmem
    have hnamed := List.all_eq_true.1 hall f hf
    cases f with
    | positional node => cases hentry
    | keyed key node =>
      cases hentry
      have entered := each _ hf e.2 hs
      rw [hkey]
      exact ⟨⟨isMapKey_of_isNamed ((keys _ hf).2 key node rfl).1 hnamed, hnamed⟩,
        entered.tabled, entered.plain⟩
  have some : rs ≠ [] := by
    rintro rfl
    cases fs with
    | nil => exact hne rfl
    | cons f rest =>
      have hnamed := List.all_eq_true.1 hall f List.mem_cons_self
      cases f with
      | positional node => cases hnamed
      | keyed key node => cases results
  have left := forall_mem_mergeEntries (P := fun k => isMapKey k ∧ k.isNamed)
    (Q := fun v : Value => v.Tabled ∧ v.isProperty = false) entry
  exact ⟨.map (mergeEntries_ne_nil some) (fun e he => (left e he).1)
    (fun e he => (left e he).2.2) (fun e he => (left e he).2.1), rfl⟩

/-- Fields of which those for nil are left out come to a list. -/
theorem tabled_of_visitSequence (h : (visitTable .values table limit reach level
    (.sequence (fs.filter (!·.isAbsent table)))).outcome = .ok r) : r.Tabled ∧ r.isContainer := by
  obtain ⟨rs, rfl, results⟩ := visitSequence_results h
  have item : ∀ u ∈ rs, u.Tabled ∧ u ≠ .nil := by
    intro u hu
    obtain ⟨f, hmem, s, hs, rfl⟩ := exists_part_of_mem_results results u hu
    obtain ⟨hf, present⟩ := List.mem_filter.1 (Builder.values.mem_of_mem_drawn hmem)
    have entered := each f hf s hs
    cases f with
    | keyed key node =>
      obtain ⟨hleaf, hkey⟩ := (keys _ hf).2 key node rfl
      exact ⟨.property (isPropertyKey_of_isKey hleaf hkey) entered.plain entered.tabled,
        fun h => by cases h⟩
    | positional node =>
      -- Nil is only read from the node for nil, and a field with that node has been left out.
      refine ⟨entered.tabled, fun hnil => ?_⟩
      have absent : (Field.positional node).isAbsent table = true :=
        decide_eq_true (Value.tagText?_of_tag? (entered.present hnil))
      rw [absent] at present
      cases present
  exact ⟨.list (fun hnil => (item .nil hnil).2 rfl) fun u hu => (item u hu).1, rfl⟩

theorem tabled_of_visitTable
    (h : (visitTable .values table limit reach level (Table.ofFields table fs)).outcome = .ok r) :
    r.Tabled ∧ r.isContainer := by
  rw [Table.ofFields] at h
  split at h
  · rename_i hm
    obtain ⟨hne, hall⟩ := Bool.and_eq_true_iff.1 hm
    exact tabled_of_visitMapping keys each (fun h => by rw [h] at hne; cases hne) hall h
  · exact tabled_of_visitSequence keys each h

end Fields

/-- What a table comes to, as the nodes inside of it that are no constants come to tables. -/
theorem tabled_of_form {fields : Value} {fs : List Field} (typed : Typed table v)
    (form : form table (deref table v) = .table fields)
    (read : tableFields table limit reach level fields = .ok fs)
    (onward : ∀ f ∈ fs, GoesOn table reach v f.node)
    (inside : ∀ f ∈ fs, ∀ s,
      (visit .values table limit (reach - tableCost) level f.node).outcome = .ok s →
      (deref table f.node).tag?.any Tag.isScalar = false → s.Tabled ∧ s.isContainer)
    (h : (visitTable .values table limit (reach - tableCost) level
      (Table.ofFields table fs)).outcome = .ok r) : r.Tabled ∧ r.isContainer := by
  have keys := exact_tableFields (typed.exact.part (mem_parts_of_form (Or.inl form))) read
  exact tabled_of_visitTable keys
    (fun f hf s => entered_of_visitValue (typed.of_leads (onward f hf).leads) (inside f hf)) h

/-- What a node that is no constant comes to where no statement and no chunk is. -/
theorem tabled_of_visit : ∀ reach v, Typed table v → Bare table v → ∀ level r,
    (visit .values table limit reach level v).outcome = .ok r →
    (deref table v).tag?.any Tag.isScalar = false → r.Tabled ∧ r.isContainer := by
  refine reach_induction fun reach v ih typed bare level r h hs => ?_
  cases visited_of_outcome h with
  | constant form =>
    obtain ⟨tag, ht, hscalar⟩ := form_eq_scalar.1 form
    rw [ht, Option.any_some, hscalar] at hs
    cases hs
  | table form read onward visit =>
    exact tabled_of_form typed form read onward (fun f hf =>
      have goes := onward f hf
      ih tableCost f.node (by decide) goes.lighter (typed.of_leads goes.leads)
        (bare.of_leads goes.leads) (level + 1)) visit
  | one form | several form | first form =>
    have := bare v .refl
    rw [form] at this
    cases this

/-! ## What trees come to -/

/-- What a node comes to: of a table that is known which its fields come to, and around tables
are constants, and lists of what several expressions come to. -/
inductive ComesTo (table : List Value) : Value → Value → Prop
  | constant {v c : Value} (form : form table (deref table v) = .scalar) (h : c.isLeaf) :
      ComesTo table v c
  | table {v fields r : Value} (form : form table (deref table v) = .table fields)
      (h : r.Tabled) (container : r.isContainer) : ComesTo table v r
  | one {v exprs node r : Value} (form : form table (deref table v) = .statement exprs)
      (nodes : expressionNodes table exprs = [node]) (h : ComesTo table node r) :
      ComesTo table v r
  | several {v exprs : Value} {rs : List Value}
      (form : form table (deref table v) = .statement exprs) (spread : isSpread table v)
      (length : rs.length = (expressionNodes table exprs).length)
      (h : ∀ p ∈ (expressionNodes table exprs).zip rs, ComesTo table p.1 p.2) :
      ComesTo table v (.list rs)
  | first {v body node r : Value} (form : form table (deref table v) = .chunk (some body))
      (first : (deref table body).first? = some node) (h : ComesTo table node r) :
      ComesTo table v r

theorem comesTo_of_visit : ∀ reach v, Typed table v → TablesApart table v → ∀ level r,
    (visit .values table limit reach level v).outcome = .ok r → ComesTo table v r := by
  refine reach_induction fun reach v ih typed apart level r h => ?_
  cases visited_of_outcome h with
  | constant form read => exact .constant form (isLeaf_of_scalar typed.exact read)
  | table form read onward visit =>
    -- Inside of the table there is no statement any more.
    obtain ⟨tabled, container⟩ := tabled_of_form typed form read onward (fun f hf =>
      have leads := (onward f hf).leads
      tabled_of_visit _ _ (typed.of_leads leads) (apart.bare form leads) _) visit
    exact .table form tabled container
  | one form nodes onward visit =>
    exact .one form nodes (ih singleCost _ (by decide) onward.lighter
      (typed.of_leads onward.leads) (apart.of_leads onward.leads) level r visit)
  | several form spread onward results =>
    rw [Walk.drawn_eq (b := .values) rfl] at results
    refine .several form spread results.length_eq.symm fun p hp => ?_
    have goes := onward p.1 (List.of_mem_zip hp).1
    exact ih severalCost p.1 (by decide) goes.lighter (typed.of_leads goes.leads)
      (apart.of_leads goes.leads) level p.2 ((List.forall₂_iff_zip.1 results).2 hp)
  | first form first onward visit =>
    exact .first form first (ih chunkCost _ (by decide) onward.lighter
      (typed.of_leads onward.leads) (apart.of_leads onward.leads) level r visit)

theorem ComesTo.isData (h : ComesTo table v r) : r.IsData := by
  induction h with
  | constant _ h => exact Value.isData_of_isLeaf h
  | table _ h container => exact ⟨h.isItem, Value.isProperty_of_isContainer container⟩
  | one _ _ _ ih => exact ih
  | @several v exprs rs _ _ length _ ih =>
    refine ⟨.list fun u hu => ?_, rfl⟩
    obtain ⟨i, hi, rfl⟩ := List.getElem_of_mem hu
    exact (ih _ (List.mem_iff_getElem.2
      ⟨i, by rw [List.length_zip]; omega, List.getElem_zip⟩)).1
  | first _ _ _ ih => exact ih

/-- A walk accepts data under every limit that its containers are within. -/
theorem walk_ok_of_isData (data : v.IsData) {m : WithTop Int} (deep : (v.nesting : WithTop Int) ≤ m)
    {α β : Type} {b : Builder α β} (hb : b.Complete) :
    ∃ s, ((Document.ofValue v).walk b (Document.limitOf m)).outcome = .ok s := by
  have fits : Walk.Fits (Document.limitOf m) 0 v.nesting :=
    Document.fits_limitOf.2 (le_trans deep (le_max_left m 0))
  obtain ⟨s, hs⟩ := hb.finishes _ (b.made_fold v)
  exact ⟨s, by rw [Document.walk_ofValue hb.draws data fits]; exact hs⟩

/-- What is read from a tree whose constants are of their kinds, and in which statements and
chunks are only around tables, is data: maps have entries and names for keys, properties are only
items of lists and have texts and numbers for keys, lists out of tables have no nil in them, and
texts inside of tables no newline. A walk accepts it under every limit that is large enough. -/
theorem read_tabled {tree : Document} (typed : Typed tree.table tree.root)
    (apart : TablesApart tree.table tree.root) (hread : (read limit tree).outcome = .ok v) :
    ComesTo tree.table tree.root v ∧ v.IsData ∧
      ∀ m : WithTop Int, (v.nesting : WithTop Int) ≤ m →
        ∀ {α β : Type} (b : Builder α β), b.Complete →
          ∃ s, ((Document.ofValue v).walk b (Document.limitOf m)).outcome = .ok s := by
  rw [read, Run.outcome_filterSteps] at hread
  obtain ⟨r, hr, h⟩ := Run.exists_of_bind_ok hread
  obtain rfl : r = v := Except.ok.inj h
  have comes := comesTo_of_visit fullReach tree.root typed apart 0 r hr
  exact ⟨comes, comes.isData, fun m deep _ _ b hb => walk_ok_of_isData comes.isData deep hb⟩

/-! ## A table with nil and a text in it -/

theorem typed_node {tag : Tag} {entries : List (String × Value)}
    (h : ∀ c, scalarForm (node tag entries) = .constant c → tag.holds c)
    (he : ∀ e ∈ entries, Typed table e.2) : Typed table (node tag entries) := by
  refine fun w c hw => forall_reaches_node
    (P := fun w => ∀ c, scalarForm (deref table w) = .constant c →
      (deref table w).tag?.any (·.holds c)) (fun c hc => ?_) (fun s c hc => by cases hc)
    (fun e hmem w hw c => he e hmem w c hw) w hw c
  have hderef : deref table (node tag entries) = node tag entries := rfl
  rw [hderef, tag?_node]
  exact h c hc

theorem typed_node_of_not_isScalar {tag : Tag} (ht : tag.isScalar = false)
    {entries : List (String × Value)} (he : ∀ e ∈ entries, Typed table e.2) :
    Typed table (node tag entries) :=
  typed_node (fun c hc => by rw [scalarForm_of_not_isScalar ht] at hc; cases hc) he

theorem typed_list {nodes : List Value} (h : ∀ v ∈ nodes, Typed table v) :
    Typed table (.list nodes) := by
  intro w c hw hc
  rcases hw.cases_head with rfl | ⟨x, hx, hxw⟩
  · cases hc
  · exact h x hx w c hxw hc

/-- Only tables, statements and chunks lead on. -/
theorem not_leads_of_isScalar {tag : Tag} (h : tag.isScalar) (entries : List (String × Value)) :
    ¬ Leads table (node tag entries) w := by
  have hform : form table (deref table (node tag entries)) = .scalar := form_of_isScalar h entries
  intro hw
  cases hw with
  | field form | expression form | first form => rw [hform] at form; cases form

theorem bare_of_isScalar {tag : Tag} (h : tag.isScalar) (entries : List (String × Value)) :
    Bare table (node tag entries) := by
  have hform : form table (deref table (node tag entries)) = .scalar := form_of_isScalar h entries
  intro w hw
  rcases hw.cases_head with rfl | ⟨x, hx, -⟩
  · rw [hform]; rfl
  · exact absurd hx (not_leads_of_isScalar h entries)

theorem tablesApart_of_leads
    (htable : ∀ fields, form table (deref table v) = .table fields →
      ∀ w, Leads table v w → Bare table w)
    (h : ∀ w, Leads table v w → TablesApart table w) : TablesApart table v := by
  intro t fields w ht form hw
  rcases ht.cases_head with rfl | ⟨x, hx, hxt⟩
  · obtain ⟨y, hy, hyw⟩ := TransGen.head'_iff.1 hw
    exact htable fields form y hy w hyw
  · exact h x hx t fields w hxt form hw

theorem Bare.apart (h : Bare table v) : TablesApart table v :=
  fun _ _ w ht _ hw => h w (ht.trans hw.to_reflTransGen)

theorem tablesApart_returned {e : Value} (h : TablesApart table e) :
    TablesApart table (chunk [returnStatement [e]]) := by
  have hchunk : form table (deref table (chunk [returnStatement [e]])) =
      .chunk (some (.list [returnStatement [e]])) := form_chunk table _
  have hreturn : form table (deref table (returnStatement [e])) = .statement (.list [e]) :=
    form_returnStatement table _
  refine tablesApart_of_leads (fun _ form => by rw [hchunk] at form; cases form) fun w hw => ?_
  obtain rfl : w = returnStatement [e] := by
    cases hw with
    | first form first => rw [hchunk] at form; cases form; cases first; rfl
    | field form | expression form => rw [hchunk] at form; cases form
  refine tablesApart_of_leads (fun _ form => by rw [hreturn] at form; cases form) fun w hw => ?_
  obtain rfl : w = e := by
    cases hw with
    | expression form mem => rw [hreturn] at form; cases form; exact List.mem_singleton.1 mem
    | field form | first form => rw [hreturn] at form; cases form
  exact h

theorem tablesApart_tableConstructor {nodes : List Value}
    (h : ∀ x ∈ nodes, ∀ w, (∃ k, fieldForm (deref table x) = .keyed k w) ∨
      fieldForm (deref table x) = .positional w → Bare table w) :
    TablesApart table (tableConstructor nodes) := by
  have hform : form table (deref table (tableConstructor nodes)) = .table (.list nodes) :=
    form_tableConstructor table nodes
  have bare : ∀ w, Leads table (tableConstructor nodes) w → Bare table w := fun w hw => by
    cases hw with
    | field form list mem value =>
      rw [hform] at form
      cases form
      cases list
      exact h _ mem w value
    | expression form | first form => rw [hform] at form; cases form
  exact tablesApart_of_leads (fun _ _ => bare) fun w hw => (bare w hw).apart

/-- What is read from `return {nil, ["a b"] = "\n"}` is a list without nil, in which the newline
is escaped. -/
theorem read_tabled_nil_text :
    let literal (s : String) :=
      node .stringLiteral [("value", .text s), ("raw", .text (quote .single s))]
    let fields := [positionalField nil, keyedField (literal "a b") (literal "\n")]
    let tree := Document.ofValue (chunk [returnStatement [tableConstructor fields]])
    let v : Value := .list [.property (.text "a b") (.text "\\n")]
    (read (.int 2) tree).outcome = .ok v ∧ ComesTo tree.table tree.root v ∧
      ∃ w, ((Document.ofValue v).walk .values (Document.limitOf (1 : Int))).outcome = .ok w := by
  intro literal fields tree v
  have typed : Typed tree.table tree.root := by
    have htext : ∀ s, Typed [] (literal s) := fun s =>
      typed_node (fun c hc => by rw [scalarForm_string] at hc; cases hc; rfl)
        (List.forall_mem_cons.2 ⟨typed_leaf rfl, List.forall_mem_singleton.2 (typed_leaf rfl)⟩)
    have hnil : Typed [] nil := typed_node (fun c hc => by cases scalarForm_nil.symm.trans hc)
      (List.forall_mem_cons.2 ⟨typed_leaf rfl, List.forall_mem_singleton.2 (typed_leaf rfl)⟩)
    have hfields : ∀ f ∈ fields, Typed [] f := List.forall_mem_cons.2
      ⟨typed_node_of_not_isScalar rfl (List.forall_mem_singleton.2 hnil),
        List.forall_mem_singleton.2 (typed_node_of_not_isScalar rfl
          (List.forall_mem_cons.2 ⟨htext _, List.forall_mem_singleton.2 (htext _)⟩))⟩
    have htable : Typed [] (tableConstructor fields) := typed_node_of_not_isScalar rfl
      (List.forall_mem_singleton.2 (typed_list hfields))
    have hreturn : Typed [] (returnStatement [tableConstructor fields]) :=
      typed_node_of_not_isScalar rfl (List.forall_mem_singleton.2
        (typed_list (List.forall_mem_singleton.2 htable)))
    exact typed_node_of_not_isScalar rfl (List.forall_mem_cons.2
      ⟨typed_list (List.forall_mem_singleton.2 hreturn),
        List.forall_mem_singleton.2 (typed_list fun w hw => absurd hw List.not_mem_nil)⟩)
  have apart : TablesApart [] tree.root := by
    refine tablesApart_returned (tablesApart_tableConstructor
      (List.forall_mem_cons.2 ⟨fun w hw => ?_, List.forall_mem_singleton.2 fun w hw => ?_⟩))
    · rw [Document.deref_nil, fieldForm_positionalField] at hw
      obtain ⟨k, hw⟩ | hw := hw <;> cases hw
      exact bare_of_isScalar rfl _
    · rw [Document.deref_nil, fieldForm_keyedField] at hw
      obtain ⟨k, hw⟩ | hw := hw <;> cases hw
      exact bare_of_isScalar rfl _
  have hread : (read (.int 2) tree).outcome = .ok v := by
    let u : Value := .list [.nil, .property (.text "a b") (.text "\n")]
    have hi : u.IsItem := .list (List.forall_mem_cons.2 ⟨.leaf rfl,
      List.forall_mem_singleton.2 (.property rfl rfl (.leaf rfl))⟩)
    obtain ⟨e, he, reads⟩ := (expression_reads (n := 2) hi rfl (by decide +kernel)).1 rfl
    have hexpr : expression u = .ok (tableConstructor fields) := by
      simp only [u, expression, fieldsOf, fieldOf, expression_leaf (v := .nil) rfl,
        expression_leaf (v := .text "\n") rfl]
      rfl
    cases he.symm.trans hexpr
    exact (reads.returned (by decide)).trans (congrArg Except.ok rfl)
  have tabled := read_tabled typed apart hread
  exact ⟨hread, tabled.1, tabled.2.2 (1 : Int) (by decide) .values Builder.complete_values⟩

end Node

end LuaData
