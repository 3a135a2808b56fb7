import LuaData.Proofs.Node.Results
import LuaData.Proofs.Printer.Written

/-
  What is read from a tree can be written again, and under which limit. A walk over a tree counts
  table constructors against its limit, but a statement with no expression or with several ones
  is a list as well, and that is not counted. So what is read nests no deeper than the limit and
  as many more containers as such statements are inside of each other (`visit_nesting_le`).
-/

namespace LuaData

open Document (deref)
open Walk (isMapKey)

/-! ## Building values again

A builder of values keeps data what it is and nests nothing deeper; of entries with the same key
it drops all values but the last. -/

section Merge

variable {α : Type} {P : Value → Prop} {Q : α → Prop} {entries : List (Value × α)}

theorem forall_mem_putEntry {key : Value} {value : α} (hk : P key) (hv : Q value)
    (h : ∀ e ∈ entries, P e.1 ∧ Q e.2) : ∀ e ∈ putEntry key value entries, P e.1 ∧ Q e.2 := by
  induction entries with
  | nil => exact List.forall_mem_singleton.2 ⟨hk, hv⟩
  | cons f rest ih =>
    obtain ⟨k, v⟩ := f
    obtain ⟨hf, hrest⟩ := List.forall_mem_cons.1 h
    rw [putEntry]
    split
    · exact List.forall_mem_cons.2 ⟨⟨hf.1, hv⟩, hrest⟩
    · exact List.forall_mem_cons.2 ⟨hf, ih hrest⟩

/-- What is true of all keys and of all values that are given is true of those that are left. -/
theorem forall_mem_mergeEntries (h : ∀ e ∈ entries, P e.1 ∧ Q e.2) :
    ∀ e ∈ mergeEntries entries, P e.1 ∧ Q e.2 := by
  have keep : ∀ done : List (Value × α), (∀ e ∈ done, P e.1 ∧ Q e.2) →
      ∀ e ∈ entries.foldl (fun done e => putEntry e.1 e.2 done) done, P e.1 ∧ Q e.2 := by
    induction entries with
    | nil => exact fun done hdone => hdone
    | cons f rest ih =>
      intro done hdone
      obtain ⟨hf, hrest⟩ := List.forall_mem_cons.1 h
      exact ih hrest _ (forall_mem_putEntry hf.1 hf.2 hdone)
  exact keep [] fun e he => absurd he List.not_mem_nil

end Merge

namespace Value

/-- Building a value again gives data of its kind that nests no deeper. -/
structure Rebuilt (u : Value) : Prop where
  item : (u.fold .values).IsItem
  property : (u.fold .values).isProperty = u.isProperty
  nesting : (u.fold .values).nesting ≤ u.nesting

theorem add_largest_le {ns : List Nat} {j : Nat} {m : Int} (hj : (j : Int) ≤ m)
    (h : ∀ n ∈ ns, ((j + n : Nat) : Int) ≤ m) : ((j + largest ns : Nat) : Int) ≤ m := by
  have hle : largest ns ≤ (m - j).toNat := largest_le.2 fun n hn => by
    have := h n hn
    omega
  omega

theorem rebuilt_sequence {mk : List Value → Value} (hm : IsSequence mk) {items : List Value}
    (h : ∀ v ∈ items, v.Rebuilt) : (mk items).Rebuilt := by
  have hfold : (mk items).fold .values = .list (items.map (fold .values)) :=
    fold_sequence _ hm items
  refine ⟨?_, ?_, ?_⟩
  · rw [hfold]
    exact .list (List.forall_mem_map.2 fun v hv => (h v hv).item)
  · rw [hfold]
    cases hm <;> rfl
  · have hle : largest ((items.map (fold .values)).map nesting) ≤
        largest (items.map nesting) :=
      largest_le.2 (List.forall_mem_map.2 (List.forall_mem_map.2 fun v hv =>
        Nat.le_trans (h v hv).nesting (le_largest (List.mem_map_of_mem hv))))
    rw [hfold, nesting_sequence .list, nesting_sequence hm]
    omega

theorem rebuilt_map {entries : List (Value × Value)}
    (hk : ∀ e ∈ entries, isMapKey e.1 ∧ e.2.isProperty = false)
    (h : ∀ e ∈ entries, e.2.Rebuilt) : (Value.map entries).Rebuilt := by
  have hfold : (Value.map entries).fold .values =
      .map (mergeEntries (entries.map fun e => (e.1, e.2.fold .values))) := fold_map _ entries
  have left : ∀ e ∈ mergeEntries (entries.map fun e => (e.1, e.2.fold .values)),
      isMapKey e.1 ∧ e.2.IsData ∧ e.2.nesting ≤ largest (entries.map fun e => e.2.nesting) := by
    refine forall_mem_mergeEntries (P := fun k => isMapKey k = true)
      (Q := fun v : Value => v.IsData ∧ v.nesting ≤ largest (entries.map fun e => e.2.nesting))
      fun f hf => ?_
    obtain ⟨e, he, rfl⟩ := List.mem_map.1 hf
    refine ⟨(hk e he).1, ⟨(h e he).item, (h e he).property.trans (hk e he).2⟩, ?_⟩
    exact Nat.le_trans (h e he).nesting
      (le_largest (List.mem_map_of_mem (f := fun e : Value × Value => e.2.nesting) he))
  refine ⟨?_, by rw [hfold]; rfl, ?_⟩
  · rw [hfold]
    exact isItem_map.2 fun e he => ⟨(left e he).1, (left e he).2.1⟩
  · have hle := largest_le.2 (List.forall_mem_map.2 fun e he => (left e he).2.2)
    rw [hfold, nesting_map, nesting_map]
    omega

theorem rebuilt_of_isItem {u : Value} (h : u.IsItem) : u.Rebuilt := by
  induction h with
  | leaf h =>
    have hfold := fold_leaf .values h
    exact ⟨by rw [hfold]; exact .leaf h, by rw [hfold]; rfl, by rw [hfold]; exact Nat.le_refl _⟩
  | list _ ih => exact rebuilt_sequence .list ih
  | tuple _ ih => exact rebuilt_sequence .tuple ih
  | map hk hp _ ih => exact rebuilt_map (fun e he => ⟨hk e he, hp e he⟩) ih
  | @property k v hk hp _ ih =>
    have hfold : (Value.property k v).fold .values = .property k (v.fold .values) :=
      fold_property _ k v
    refine ⟨?_, by rw [hfold]; rfl, ?_⟩
    · rw [hfold]
      exact .property hk (ih.property.trans hp) ih.item
    · rw [hfold, nesting_property, nesting_property]
      exact ih.nesting

end Value

namespace Node

variable {α β : Type} {b : Builder α β} {table : List Value} {limit : Value}
  {reach level k : Nat} {v w : Value}

/-! ## Statements that are lists -/

/-- The nodes of the expressions of a statement, as far as they can be looked up. -/
def expressionNodes (table : List Value) (exprs : Value) : List Value :=
  match (deref table exprs).elements? with
  | some items => if items.length = 1 then (deref table exprs).atZero?.toList else items
  | none => []

/-- Whether a node is a statement that is read as a list: one with no expression or with several
ones. -/
def isSpread (table : List Value) (v : Value) : Bool :=
  match form table (deref table v) with
  | .statement exprs => (deref table exprs).elements?.any (·.length ≠ 1)
  | _ => false

/-- That a visit of `v` goes on to `w`. -/
inductive Leads (table : List Value) (v w : Value) : Prop
  | field {fields x : Value} {items : List Value} (form : form table (deref table v) = .table fields)
      (list : (deref table fields).elements? = some items) (mem : x ∈ items)
      (value : (∃ k, fieldForm (deref table x) = .keyed k w) ∨
        fieldForm (deref table x) = .positional w)
  | expression {exprs : Value} (form : form table (deref table v) = .statement exprs)
      (mem : w ∈ expressionNodes table exprs)
  | first {body : Value} (form : form table (deref table v) = .chunk (some body))
      (first : (deref table body).first? = some w)

/-- No more than `k` statements that are lists are inside of each other. -/
def SpreadsAtMost (table : List Value) (k : Nat) (v : Value) : Prop :=
  ∀ path, (v :: path).IsChain (Leads table) → (v :: path).countP (isSpread table) ≤ k

theorem SpreadsAtMost.one_le (h : SpreadsAtMost table k v) (hv : isSpread table v) : 1 ≤ k := by
  have := h [] (.singleton v)
  rwa [List.countP_cons_of_pos hv, List.countP_nil] at this

theorem SpreadsAtMost.of_leads (h : SpreadsAtMost table k v) (hw : Leads table v w) :
    SpreadsAtMost table (k - if isSpread table v then 1 else 0) w := by
  intro path hpath
  have := h (w :: path) (List.isChain_cons_cons.2 ⟨hw, hpath⟩)
  rw [List.countP_cons] at this
  omega

theorem eq_expressionNodes {exprs : Value} {es : Expressions}
    (h : expressions table reach exprs = .ok es) : es.nodes = expressionNodes table exprs := by
  obtain ⟨u, hu, h⟩ := exists_of_bind_ok h
  obtain rfl := eq_deref_of_follow hu
  split at h
  · rename_i items hi
    have hnodes : expressionNodes table exprs =
        if items.length = 1 then (deref table exprs).atZero?.toList else items := by
      rw [expressionNodes, hi]
    rw [hnodes]
    split at h
    · rename_i hone
      rw [if_pos hone]
      split at h
      · rename_i hz; cases h; rw [hz]; rfl
      · cases h
    · rename_i hne
      rw [if_neg hne]
      cases h; rfl
  · cases h

theorem length_ne_one_of_several {exprs : Value} {nodes : List Value}
    (h : expressions table reach exprs = .ok (.several nodes)) :
    (deref table exprs).elements?.any (·.length ≠ 1) := by
  obtain ⟨u, hu, h⟩ := exists_of_bind_ok h
  obtain rfl := eq_deref_of_follow hu
  split at h
  · rename_i items hi
    rw [hi, Option.any_some]
    split at h
    · split at h <;> cases h
    · rename_i hne
      exact decide_eq_true hne
  · cases h

/-- A visit of a table goes on to the nodes of the fields that are read. -/
theorem leads_of_tableFields {fields : Value} (hform : form table (deref table v) = .table fields)
    {fs : List Field} (h : tableFields table limit reach level fields = .ok fs) :
    ∀ f ∈ fs, Leads table v f.node := by
  obtain ⟨-, -, h⟩ := exists_of_bind_ok h
  obtain ⟨items, hi, h⟩ := exists_of_bind_ok h
  have list : (deref table fields).elements? = some items := by
    obtain ⟨u, hu, hk⟩ := exists_of_bind_ok hi
    obtain rfl := eq_deref_of_follow hu
    split at hk
    · cases hk; assumption
    · cases hk
  have each : ∀ (xs : List Value) (fs : List Field), (∀ x ∈ xs, x ∈ items) →
      readFields table limit reach level xs = .ok fs → ∀ f ∈ fs, Leads table v f.node := by
    intro xs
    induction xs with
    | nil => intro fs _ h; cases h; exact fun f hf => absurd hf List.not_mem_nil
    | cons x rest ih =>
      intro fs hx h
      obtain ⟨f, hf, h⟩ := exists_of_bind_ok h
      obtain ⟨gs, hgs, h⟩ := exists_of_bind_ok h
      cases h
      refine List.forall_mem_cons.2 ⟨.field hform list (hx x List.mem_cons_self) ?_,
        ih gs (fun y hy => hx y (List.mem_cons_of_mem _ hy)) hgs⟩
      obtain ⟨u, hu, hk⟩ := exists_of_bind_ok hf
      obtain rfl := eq_deref_of_follow hu
      split at hk
      · rename_i k node hfield
        obtain ⟨c, -, hk⟩ := exists_of_bind_ok hk
        split at hk <;> cases hk
        exact Or.inl ⟨k, hfield⟩
      · rename_i node hfield
        cases hk
        exact Or.inr hfield
      · cases hk
  exact each items fs (fun _ => id) h

/-! ## Visits that succeed -/

/-- A visit of `v` goes on to `w`, which is lighter where no reach is left. -/
structure GoesOn (table : List Value) (reach : Nat) (v w : Value) : Prop where
  leads : Leads table v w
  lighter : reach = 0 → w.weight < v.weight

/-- The ways in which a visit succeeds, with the nodes that it goes on to. -/
inductive Visited (b : Builder α β) (table : List Value) (limit : Value) (reach level : Nat)
    (v : Value) : α → Prop
  | constant {c : Value} (form : form table (deref table v) = .scalar)
      (read : scalar table limit reach level v = .ok c) :
      Visited b table limit reach level v (b.constant c)
  | table {r : α} {fields : Value} {fs : List Field}
      (form : form table (deref table v) = .table fields)
      (read : tableFields table limit reach (level + 1) fields = .ok fs)
      (onward : ∀ f ∈ fs, GoesOn table reach v f.node)
      (visit : (visitTable b table limit (reach - tableCost) (level + 1)
        (Table.ofFields table fs)).outcome = .ok r) : Visited b table limit reach level v r
  | one {r : α} {exprs node : Value} (form : form table (deref table v) = .statement exprs)
      (nodes : expressionNodes table exprs = [node]) (onward : GoesOn table reach v node)
      (visit : (visit b table limit (reach - singleCost) level node).outcome = .ok r) :
      Visited b table limit reach level v r
  | several {rs : List α} {exprs : Value} (form : form table (deref table v) = .statement exprs)
      (spread : isSpread table v)
      (onward : ∀ w ∈ expressionNodes table exprs, GoesOn table reach v w)
      (results : List.Forall₂
        (fun w r => (visit b table limit (reach - severalCost) level w).outcome = .ok r)
        (b.drawn (expressionNodes table exprs)) rs) :
      Visited b table limit reach level v (b.sequence rs)
  | first {r : α} {body node : Value} (form : form table (deref table v) = .chunk (some body))
      (first : (deref table body).first? = some node) (onward : GoesOn table reach v node)
      (visit : (visit b table limit (reach - chunkCost) level node).outcome = .ok r) :
      Visited b table limit reach level v r

theorem visited_of_outcome {r : α} (h : (visit b table limit reach level v).outcome = .ok r) :
    Visited b table limit reach level v r := by
  rw [visit_eq] at h
  obtain ⟨u, hu, h⟩ := Run.exists_of_bind_ok h
  rw [Run.outcome_ofExcept] at hu
  obtain rfl := eq_deref_of_follow hu
  cases hform : form table (deref table v) with
  | scalar =>
    rw [hform] at h
    obtain ⟨c, hc, h⟩ := Run.exists_of_bind_ok h
    cases h
    exact .constant hform hc
  | table fields =>
    rw [hform] at h
    obtain ⟨fs, hfs, h⟩ := Run.exists_of_bind_ok h
    obtain ⟨⟨⟩, -, h⟩ := Run.exists_of_bind_ok h
    rw [Run.outcome_ofExcept] at hfs
    exact .table hform hfs
      (fun f hf => ⟨leads_of_tableFields hform hfs f hf, field_lighter hu hform hfs hf⟩) h
  | statement exprs =>
    rw [hform] at h
    obtain ⟨es, hes, h⟩ := Run.exists_of_bind_ok h
    rw [Run.outcome_ofExcept] at hes
    have hnodes := eq_expressionNodes hes
    cases es with
    | one node =>
      have hmem : node ∈ expressionNodes table exprs := hnodes ▸ List.mem_cons_self
      exact .one hform hnodes.symm ⟨.expression hform hmem, one_lighter hu hform hes⟩ h
    | several nodes =>
      obtain ⟨⟨⟩, -, h⟩ := Run.exists_of_bind_ok h
      obtain ⟨rs, hrs, h⟩ := Run.exists_of_bind_ok h
      cases h
      cases hnodes
      have spread : isSpread table v := by
        rw [isSpread, hform]
        exact length_ne_one_of_several hes
      exact .several hform spread
        (fun w hw => ⟨.expression hform hw, several_lighter hu hform hes hw⟩)
        (visitAll_results hrs)
  | chunk body =>
    rw [hform] at h
    cases body with
    | none => cases h
    | some body =>
      obtain ⟨first, hfirst, h⟩ := Run.exists_of_bind_ok h
      rw [Run.outcome_ofExcept] at hfirst
      cases first with
      | none => cases h
      | some node =>
        have first : (deref table body).first? = some node := by
          obtain ⟨u, hu, hk⟩ := exists_of_bind_ok hfirst
          obtain rfl := eq_deref_of_follow hu
          exact Except.ok.inj hk
        exact .first hform first ⟨.first hform first, first_lighter hu hform hfirst⟩ h
  | _ => rw [hform] at h; cases h

/-! ## How deep what is read nests -/

variable {n : Int}

theorem level_le_of_tableFields {fields : Value} {fs : List Field}
    (h : tableFields table (.int n) reach level fields = .ok fs) : (level : Int) ≤ n := by
  obtain ⟨_, hc, -⟩ := exists_of_bind_ok h
  rw [Value.checkLevel_int] at hc
  split at hc
  · assumption
  · cases hc

/-- What a table comes to nests one deeper than its parts. -/
theorem table_nesting_le {parts : Table} {m : Int} (hm : ((level + 1 : Nat) : Int) ≤ m)
    (each : ∀ w ∈ parts.nodes, ∀ r,
      (visitValue .nesting table limit reach (level + 1) w).outcome = .ok r →
      ((level + 1 + r : Nat) : Int) ≤ m) {r : Nat}
    (h : (visitTable .nesting table limit reach (level + 1) parts).outcome = .ok r) :
    ((level + r : Nat) : Int) ≤ m := by
  obtain ⟨rs, hrs, rfl⟩ | ⟨rs, hrs, rfl⟩ := visitTable_forall (fun _ _ => id) each h
  · have := Value.add_largest_le hm hrs
    have : Builder.nesting.sequence rs = 1 + Value.largest rs := rfl
    omega
  · have := Value.add_largest_le hm (List.forall_mem_map.2 hrs)
    have : Builder.nesting.mapping rs = 1 + Value.largest (rs.map Prod.snd) := rfl
    omega

/-- What a visit comes to nests no deeper than the limit and the statements that are lists. -/
theorem visit_nesting_le : ∀ reach v level k r, SpreadsAtMost table k v →
    (visit .nesting table (.int n) reach level v).outcome = .ok r →
    ((level + r : Nat) : Int) ≤ max n level + k := by
  refine reach_induction fun reach v ih level k r hk h => ?_
  have constant : ∀ c, Builder.nesting.constant c = 0 := fun _ => rfl
  cases visited_of_outcome h with
  | @constant c =>
    have := constant c
    omega
  | table form read onward visit =>
    -- A table is inside of the limit itself, so the level plays no part for what is in it.
    have deep := level_le_of_tableFields read
    have := table_nesting_le (m := n + k) (by omega) (fun w hw r hr => by
      obtain ⟨f, hf, rfl⟩ := exists_of_mem_nodes hw
      have hkw := hk.of_leads (onward f hf).leads
      refine visitValue_forall (P := fun r => ((level + 1 + r : Nat) : Int) ≤ n + k)
        (fun c => ?_) (fun r hr => ?_) hr
      · have := constant c
        omega
      · have := ih tableCost f.node (by decide) (onward f hf).lighter _ _ r hkw hr
        omega) visit
    omega
  | one form nodes onward visit =>
    have := ih singleCost _ (by decide) onward.lighter level _ r (hk.of_leads onward.leads) visit
    omega
  | @several rs exprs form spread onward results =>
    -- One of the `k` containers that are not counted is this list.
    have hone := hk.one_le spread
    have each : ∀ r ∈ rs, ((level + r : Nat) : Int) ≤ max n level + (k - 1 : Nat) := by
      intro r hr
      obtain ⟨w, hw, hr⟩ := exists_part_of_mem_results results r hr
      have goes := onward w (Builder.nesting.mem_of_mem_drawn hw)
      have hkw := hk.of_leads goes.leads
      rw [if_pos spread] at hkw
      exact ih severalCost w (by decide) goes.lighter level _ r hkw hr
    have := Value.add_largest_le (by omega) each
    have : Builder.nesting.sequence rs = 1 + Value.largest rs := rfl
    omega
  | first form first onward visit =>
    have := ih chunkCost _ (by decide) onward.lighter level _ r (hk.of_leads onward.leads) visit
    omega

/-- What is read under a limit can be written under it, if each statement that is read has one
expression. In general the limit has to allow for the containers that other statements are read
as, of which there are no more around each other than such statements. -/
theorem write_read {tree : Document} (exact : Exact tree.table tree.root)
    (hread : (read (.int n) tree).outcome = .ok v)
    (spread : SpreadsAtMost tree.table k tree.root) :
    (v.nesting : Int) ≤ max n 0 + k ∧ ∀ m : Int, max n 0 + k ≤ max m 0 →
      (∃ w, ((Document.ofValue v).walk .values (.int m)).outcome = .ok w) ∧
      ∀ source overrides f g, (Format.ofSource source).outcome = .ok f →
        (f.override overrides).outcome = .ok g →
        ∃ text, ((Document.ofValue v).write source overrides (.int m)).outcome = .ok text := by
  obtain ⟨u, hd, -, told⟩ := walk_tells rfl exact hread
  have outcome : ∀ {α β : Type} (b : Builder α β), b.limit = none →
      (walk b (.int n) tree).outcome = b.finish (u.fold b) := fun b hb => by
    rw [← Run.outcome_filterSteps Step.event?, told b hb]
  obtain rfl : u.fold .values = v := by
    have hr : (walk Builder.values (.int n) tree).outcome = .ok v := hread
    rw [outcome Builder.values rfl] at hr
    exact Except.ok.inj hr
  have rebuilt := Value.rebuilt_of_isItem hd.1
  have data : (u.fold .values).IsData := ⟨rebuilt.item, rebuilt.property.trans hd.2⟩
  have deep : ((u.fold .values).nesting : Int) ≤ max n 0 + k := by
    obtain ⟨r, hr, h⟩ := Run.exists_of_bind_ok (outcome Builder.nesting rfl)
    obtain rfl : r = u.nesting := Except.ok.inj h
    have hle := visit_nesting_le fullReach tree.root 0 k u.nesting spread hr
    have := rebuilt.nesting
    rw [Nat.zero_add, Nat.cast_zero] at hle
    omega
  refine ⟨deep, fun m hm => ?_⟩
  have fits : Walk.Fits (Document.limitOf m) 0 (u.fold .values).nesting := by
    rw [Document.fits_limitOf, ← WithTop.coe_natCast, ← WithTop.coe_zero, ← WithTop.coe_max,
      WithTop.coe_le_coe]
    omega
  have walked : ∀ {α β : Type} (b : Builder α β), b.Complete →
      ∃ r, ((Document.ofValue (u.fold .values)).walk b (.int m)).outcome = .ok r := fun b hb => by
    obtain ⟨r, hr⟩ := hb.finishes _ (b.made_fold (u.fold .values))
    refine ⟨r, ?_⟩
    have hwalk : (Document.ofValue (u.fold .values)).walk b (.int m) = _ :=
      Document.walk_ofValue hb.draws data fits
    rw [hwalk]
    exact hr
  refine ⟨walked .values Builder.complete_values, fun source overrides f g hf hg => ?_⟩
  rw [Document.outcome_write hf hg]
  exact walked g.printer g.complete_printer

/-! ## Two tables in one statement -/

theorem spreadsAtMost_of_leads {j : Nat} (hj : j + (if isSpread table v then 1 else 0) ≤ k)
    (h : ∀ w, Leads table v w → SpreadsAtMost table j w) : SpreadsAtMost table k v := by
  intro path hpath
  rw [List.countP_cons]
  cases path with
  | nil => rw [List.countP_nil]; omega
  | cons w path =>
    obtain ⟨hw, hpath⟩ := List.isChain_cons_cons.1 hpath
    have := h w hw path hpath
    omega

/-- The statement `return {}, {}`. -/
def twoTables : Value := chunk [returnStatement [tableConstructor [], tableConstructor []]]

theorem read_twoTables : (read (.int 1) (.ofValue twoTables)).outcome =
    .ok (.list [.list [], .list []]) := by
  have hempty : ∀ reach, (visit .values [] (.int 1) reach 0 (tableConstructor [])).outcome =
      .ok (.list []) := by
    intro reach
    have hfields : tableFields [] (.int 1) reach (0 + 1) (.list []) = .ok [] := rfl
    have hparts : Table.ofFields [] [] = .sequence [] := rfl
    rw [visit_eq, follow_nil, Run.ofExcept_ok_bind, form_tableConstructor]
    simp only [hfields, Run.ofExcept_ok_bind, hparts, visitTable, Builder.drawn, Builder.values,
      visitFields]
    rfl
  have hfirst : firstStatement? [] fullReach
      (.list [returnStatement [tableConstructor [], tableConstructor []]]) =
      .ok (some (returnStatement [tableConstructor [], tableConstructor []])) := rfl
  have hseveral : expressions [] (fullReach - chunkCost)
      (.list [tableConstructor [], tableConstructor []]) =
      .ok (.several [tableConstructor [], tableConstructor []]) := rfl
  rw [read, Run.outcome_filterSteps, walk, Document.ofValue, twoTables, Run.outcome_bind, visit_eq,
    follow_nil, Run.ofExcept_ok_bind, form_chunk]
  simp only [hfirst, Run.ofExcept_ok_bind]
  rw [visit_eq, follow_nil, Run.ofExcept_ok_bind, form_returnStatement]
  simp only [hseveral, Run.ofExcept_ok_bind, Walk.drawn_eq (b := .values) rfl, visitAll,
    Run.outcome_bind, hempty, ok_bind]
  rfl

theorem exact_twoTables : Exact [] twoTables := by
  have htable : Exact [] (tableConstructor []) := exact_node_of_not_isScalar rfl
    (List.forall_mem_singleton.2 (exact_list fun w hw => absurd hw List.not_mem_nil))
  have hreturn : Exact [] (returnStatement [tableConstructor [], tableConstructor []]) :=
    exact_node_of_not_isScalar rfl (List.forall_mem_singleton.2 (exact_list
      (List.forall_mem_cons.2 ⟨htable, List.forall_mem_singleton.2 htable⟩)))
  exact exact_node_of_not_isScalar rfl (List.forall_mem_cons.2
    ⟨exact_list (List.forall_mem_singleton.2 hreturn),
      List.forall_mem_singleton.2 (exact_list fun w hw => absurd hw List.not_mem_nil)⟩)

theorem spreadsAtMost_twoTables : SpreadsAtMost [] 1 twoTables := by
  have table : SpreadsAtMost [] 0 (tableConstructor []) := by
    have none : isSpread [] (tableConstructor []) = false := by
      rw [isSpread, Document.deref_nil, form_tableConstructor]
    refine spreadsAtMost_of_leads (j := 0) (by rw [none]; decide) fun w hw => ?_
    cases hw with
    | field form list mem =>
      rw [Document.deref_nil, form_tableConstructor] at form
      cases form
      cases list
      cases mem
    | expression form => rw [Document.deref_nil, form_tableConstructor] at form; cases form
    | first form => rw [Document.deref_nil, form_tableConstructor] at form; cases form
  have statement :
      SpreadsAtMost [] 1 (returnStatement [tableConstructor [], tableConstructor []]) := by
    have one : isSpread [] (returnStatement [tableConstructor [], tableConstructor []]) := by
      rw [isSpread, Document.deref_nil, form_returnStatement]
      rfl
    refine spreadsAtMost_of_leads (j := 0) (by rw [if_pos one]) fun w hw => ?_
    cases hw with
    | field form => rw [Document.deref_nil, form_returnStatement] at form; cases form
    | expression form mem =>
      rw [Document.deref_nil, form_returnStatement] at form
      cases form
      have mem : w ∈ [tableConstructor [], tableConstructor []] := mem
      simp only [List.mem_cons, List.not_mem_nil, or_false, or_self] at mem
      exact mem ▸ table
    | first form => rw [Document.deref_nil, form_returnStatement] at form; cases form
  have none : isSpread [] twoTables = false := by
    rw [isSpread, Document.deref_nil, twoTables, form_chunk]
  refine spreadsAtMost_of_leads (j := 1) (by rw [none]; decide) fun w hw => ?_
  cases hw with
  | field form => rw [Document.deref_nil, twoTables, form_chunk] at form; cases form
  | expression form => rw [Document.deref_nil, twoTables, form_chunk] at form; cases form
  | first form first =>
    rw [Document.deref_nil, twoTables, form_chunk] at form
    cases form
    cases first
    exact statement

/-- Two empty tables are read under the limit one, and written under the limit two. -/
theorem write_read_twoTables :
    (read (.int 1) (.ofValue twoTables)).outcome = .ok (.list [.list [], .list []]) ∧
      ∃ w, ((Document.ofValue (.list [.list [], .list []])).walk .values (.int 2)).outcome =
        .ok w :=
  ⟨read_twoTables,
    ((write_read exact_twoTables read_twoTables spreadsAtMost_twoTables).2 2 (by decide)).1⟩

/-- What is read under a limit cannot always be written under it. -/
theorem not_write_under_limit_of_read :
    ¬ ∀ (tree : Document) (n : Int) (v : Value), Exact tree.table tree.root →
      (read (.int n) tree).outcome = .ok v →
      (∃ w, ((Document.ofValue v).walk .values (.int n)).outcome = .ok w) ∧
      ∀ source f, (Format.ofSource source).outcome = .ok f →
        ∃ text, ((Document.ofValue v).write source [] (.int n)).outcome = .ok text := by
  intro writes_back
  obtain ⟨⟨w, hw⟩, -⟩ := writes_back (.ofValue twoTables) 1 _ exact_twoTables read_twoTables
  have failed : ((Document.ofValue (.list [.list [], .list []])).walk .values (.int 1)).outcome =
      .error (.tooDeep (.int 1)) := by
    simp [Document.walk, Walk.visit, Walk.visitItems, Walk.visitItem, Document.ofValue,
      Builder.drawn, Builder.values, Value.checkDepth, Value.number?, Value.base, Value.int,
      Number.reachedBy]
  rw [failed] at hw
  cases hw

end Node

end LuaData
