import LuaData.Proofs.Node.Built
import LuaData.Proofs.Node.Ends

/-
  A walk over a tree succeeds for the trees of the grammar and for no others. Each visit ends as
  the grammar says for what it visits; `Node.visit_ends` puts the visits together by induction on
  the reach. The general statement has a way out for trees with references that use the reach up;
  `Node.walk_ofValue_ok_iff` is the statement for trees without references, and has none.
-/

namespace LuaData

open Relation (TransGen)
open Document (Part deref)

namespace Node

variable {α β : Type} {b : Builder α β} {E : Prop} {table : List Value} {n : Int}
  {reach level : Nat} {v : Value}

/-! ## Visits -/

theorem visitValue_ends (hE : Endless table reach v → E)
    (ih : Ends E n b.Made (fun m => Reducible table m level v)
      (visit b table (.int n) reach level v).outcome) :
    Ends E n b.Made (fun m => Reducible table m level v)
      (visitValue b table (.int n) reach level v).outcome := by
  rw [visitValue]
  split
  · rename_i hs
    have hform : form table (deref table v) = .scalar :=
      form_eq_scalar.2 ((Option.any_eq_true _ _).1 hs)
    have iff : ∀ m, Reducible table m level v ↔ ∃ c, Scalar table m level v c := fun m => by
      rw [reducible_iff, hform]
    rw [Run.outcome_bind, Run.outcome_ofExcept]
    refine ((scalar_ends reach v level).mono hE).bind (fun m => (iff m).1) fun c _ hc _ => ?_
    exact .ok ((iff n).2 ⟨c, hc⟩) (.constant _)
  · exact ih

theorem visitAll_ends {nodes : List Value}
    (ih : ∀ v ∈ nodes, Ends E n b.Made (fun m => Reducible table m level v)
      (visit b table (.int n) reach level v).outcome) :
    Ends E n (fun rs => ∀ r ∈ rs, b.Made r) (fun m => ∀ v ∈ nodes, Reducible table m level v)
      (visitAll b table (.int n) reach level nodes).outcome := by
  induction nodes with
  | nil =>
    rw [visitAll]
    exact .ok (fun v hv => absurd hv List.not_mem_nil) fun r hr => absurd hr List.not_mem_nil
  | cons v rest ihr =>
    rw [visitAll, Run.outcome_bind]
    refine (ih v List.mem_cons_self).bind (fun m hm => hm v List.mem_cons_self) fun r _ hr hv => ?_
    rw [Run.outcome_bind]
    refine (ihr fun w hw => ih w (List.mem_cons_of_mem _ hw)).bind
      (fun m hm w hw => hm w (List.mem_cons_of_mem _ hw)) fun rs _ hrs hrest => ?_
    exact .ok (List.forall_mem_cons.2 ⟨hv, hrest⟩) (List.forall_mem_cons.2 ⟨hr, hrs⟩)

theorem visitEntries_ends {entries : List (Value × Value)}
    (ih : ∀ e ∈ entries, Ends E n b.Made (fun m => Reducible table m level e.2)
      (visitValue b table (.int n) reach level e.2).outcome) :
    Ends E n (fun rs => ∀ r ∈ rs, b.Made r.2)
      (fun m => ∀ e ∈ entries, Reducible table m level e.2)
      (visitEntries b table (.int n) reach level entries).outcome := by
  induction entries with
  | nil =>
    rw [visitEntries]
    exact .ok (fun e he => absurd he List.not_mem_nil) fun r hr => absurd hr List.not_mem_nil
  | cons e rest ihr =>
    obtain ⟨key, node⟩ := e
    rw [visitEntries, Run.outcome_bind]
    refine (ih (key, node) List.mem_cons_self).bind (fun m hm => hm _ List.mem_cons_self)
      fun r _ hr hv => ?_
    rw [Run.outcome_bind, emit, Run.outcome_step, ok_bind, Run.outcome_bind]
    refine (ihr fun f hf => ih f (List.mem_cons_of_mem _ hf)).bind
      (fun m hm f hf => hm f (List.mem_cons_of_mem _ hf)) fun rs _ hrs hrest => ?_
    exact .ok (List.forall_mem_cons.2 ⟨hv, hrest⟩) (List.forall_mem_cons.2 ⟨hr, hrs⟩)

theorem visitFields_ends {fields : List Field}
    (ih : ∀ f ∈ fields, Ends E n b.Made (fun m => Reducible table m level f.node)
      (visitValue b table (.int n) reach level f.node).outcome) :
    Ends E n (fun rs => ∀ r ∈ rs, b.Made r)
      (fun m => ∀ f ∈ fields, Reducible table m level f.node)
      (visitFields b table (.int n) reach level fields).outcome := by
  induction fields with
  | nil =>
    rw [visitFields]
    exact .ok (fun e he => absurd he List.not_mem_nil) fun r hr => absurd hr List.not_mem_nil
  | cons f rest ihr =>
    have hf := ih f List.mem_cons_self
    have hrest := ihr fun g hg => ih g (List.mem_cons_of_mem _ hg)
    cases f with
    | keyed key node =>
      rw [visitFields, Run.outcome_bind]
      refine hf.bind (fun m hm => hm _ List.mem_cons_self) fun r _ hr hv => ?_
      rw [Run.outcome_bind, emit, Run.outcome_step, ok_bind, Run.outcome_bind]
      refine hrest.bind (fun m hm g hg => hm g (List.mem_cons_of_mem _ hg))
        fun rs _ hrs hall => ?_
      exact .ok (List.forall_mem_cons.2 ⟨hv, hall⟩)
        (List.forall_mem_cons.2 ⟨.property key hr, hrs⟩)
    | positional node =>
      rw [visitFields, Run.outcome_bind]
      refine hf.bind (fun m hm => hm _ List.mem_cons_self) fun r _ hr hv => ?_
      rw [Run.outcome_bind]
      refine hrest.bind (fun m hm g hg => hm g (List.mem_cons_of_mem _ hg))
        fun rs _ hrs hall => ?_
      exact .ok (List.forall_mem_cons.2 ⟨hv, hall⟩) (List.forall_mem_cons.2 ⟨hr, hrs⟩)

/-- A field that is left out because it is nil stands for a value all the same. -/
theorem reducible_of_isAbsent {f : Field} (h : f.isAbsent table) :
    Reducible table n level f.node := by
  cases f with
  | keyed key node => cases h
  | positional node =>
    have ht : (deref table node).tagText? = some Tag.nilLiteral.text := of_decide_eq_true h
    have kind : (deref table node).tag? = some .nilLiteral := by
      rw [Value.tag?, ht]
      exact Tag.ofText?_text _
    exact .scalar (.nil kind)

theorem visitMapping_ends (hb : b.limit = none) {fs : List Field} (hnamed : fs.all Field.isNamed)
    (ih : ∀ f ∈ fs, Ends E n b.Made (fun m => Reducible table m level f.node)
      (visitValue b table (.int n) reach level f.node).outcome) :
    Ends E n b.Made (fun m => ∀ f ∈ fs, Reducible table m level f.node)
      (visitTable b table (.int n) reach level (.mapping (fs.filterMap Field.entry?))).outcome := by
  have hentry : ∀ f ∈ fs, ∃ key, (key, f.node) ∈ fs.filterMap Field.entry? := by
    intro f hf
    cases f with
    | keyed key node => exact ⟨key, List.mem_filterMap.2 ⟨_, hf, rfl⟩⟩
    | positional node => cases List.all_eq_true.1 hnamed _ hf
  have hfield : ∀ e ∈ fs.filterMap Field.entry?, ∃ f ∈ fs, f.node = e.2 := by
    intro e he
    obtain ⟨f, hf, hfe⟩ := List.mem_filterMap.1 he
    cases f with
    | keyed key node => cases hfe; exact ⟨_, hf, rfl⟩
    | positional node => cases hfe
  have each : ∀ e ∈ fs.filterMap Field.entry?, Ends E n b.Made
      (fun m => Reducible table m level e.2)
      (visitValue b table (.int n) reach level e.2).outcome := fun e he => by
    obtain ⟨f, hf, hnode⟩ := hfield e he
    exact hnode ▸ ih f hf
  rw [visitTable, Walk.drawn_eq hb, Run.outcome_bind, emit, Run.outcome_step, ok_bind,
    Run.outcome_bind]
  refine (visitEntries_ends each).bind (fun m hm e he => ?_) fun rs _ hrs hall => ?_
  · obtain ⟨f, hf, hnode⟩ := hfield e he
    exact hnode ▸ hm f hf
  · refine .ok (fun f hf => ?_) (.mapping hrs)
    obtain ⟨key, hkey⟩ := hentry f hf
    exact hall _ hkey

theorem visitSequence_ends (hb : b.limit = none) {fs : List Field}
    (ih : ∀ f ∈ fs, Ends E n b.Made (fun m => Reducible table m level f.node)
      (visitValue b table (.int n) reach level f.node).outcome) :
    Ends E n b.Made (fun m => ∀ f ∈ fs, Reducible table m level f.node)
      (visitTable b table (.int n) reach level
        (.sequence (fs.filter (!·.isAbsent table)))).outcome := by
  have each : ∀ f ∈ fs.filter (!·.isAbsent table), Ends E n b.Made
      (fun m => Reducible table m level f.node)
      (visitValue b table (.int n) reach level f.node).outcome := fun f hf =>
    ih f (List.mem_filter.1 hf).1
  rw [visitTable, Walk.drawn_eq hb, Run.outcome_bind, emit, Run.outcome_step, ok_bind,
    Run.outcome_bind]
  refine (visitFields_ends each).bind (fun m hm f hf => hm f (List.mem_filter.1 hf).1)
    fun rs _ hrs hall => ?_
  refine .ok (fun f hf => ?_) (.sequence hrs)
  by_cases habs : f.isAbsent table
  · exact reducible_of_isAbsent habs
  · exact hall f (List.mem_filter.2 ⟨hf, by rw [Bool.not_eq_true', ← Bool.not_eq_true]; exact habs⟩)

theorem visitTable_ends (hb : b.limit = none) {fs : List Field}
    (ih : ∀ f ∈ fs, Ends E n b.Made (fun m => Reducible table m level f.node)
      (visitValue b table (.int n) reach level f.node).outcome) :
    Ends E n b.Made (fun m => ∀ f ∈ fs, Reducible table m level f.node)
      (visitTable b table (.int n) reach level (Table.ofFields table fs)).outcome := by
  rw [Table.ofFields]
  split
  · rename_i hc
    exact visitMapping_ends hb (Bool.and_eq_true_iff.1 hc).2 ih
  · exact visitSequence_ends hb ih

/-! ## Trees -/

theorem visit_ends (hb : b.limit = none) :
    ∀ reach v, Shaped table v → ∀ level,
      Ends (Endless table reach v) n b.Made (fun m => Reducible table m level v)
        (visit b table (.int n) reach level v).outcome := by
  refine reach_induction fun reach v ih hv level => ?_
  -- The visit of a part that is lighter where no reach is left, which is how it ends for `v`.
  have ih : ∀ cost w, 0 < cost → cost ≤ tableCost → TransGen (Part table) v w →
      (reach = 0 → w.weight < v.weight) → ∀ level,
      Ends (Endless table reach v) n b.Made (fun m => Reducible table m level w)
        (visit b table (.int n) (reach - cost) level w).outcome :=
    fun cost w hc hle hvw hlt level =>
      (ih cost w hc hlt (hv.below hvw) level).mono (.below hle hvw)
  rw [visit_eq, Run.outcome_bind]
  refine follow_ends.bind (fun _ _ => trivial) ?_
  rintro _ hu rfl -
  have iff : ∀ m, Reducible table m level v ↔ _ := fun m => reducible_iff
  have lighter : ∀ w, form table (deref table v) = .table w ∨
      form table (deref table v) = .statement w ∨ form table (deref table v) = .chunk (some w) →
      reach = 0 → w.weight < v.weight := fun w => weight_lt_of_form hu
  cases hform : form table (deref table v) with
  | scalar =>
    simp only [hform] at iff ⊢
    rw [Run.outcome_bind, Run.outcome_ofExcept]
    refine (scalar_ends reach v level).bind (fun m => (iff m).1) fun c _ hc _ => ?_
    exact .ok ((iff n).2 ⟨c, hc⟩) (.constant c)
  | table fields =>
    have entry : Has table v "fields" fields := (form_eq_table.1 hform).2
    obtain ⟨items, hi, below⟩ := hv.lists (by decide) entry
    simp only [hform, exists_lists_iff hi] at iff lighter ⊢
    rw [Run.outcome_bind, Run.outcome_ofExcept]
    refine ((tableFields_ends hi).mono (.up (.single entry.part))).bind (fun m hm => ?_)
      fun fs hfs hread hdeep => ?_
    · obtain ⟨hdeep, each⟩ := (iff m).1 hm
      exact ⟨hdeep, fun w hw => (each w hw).exists_readAs⟩
    have belowField : ∀ f ∈ fs, TransGen (Part table) v f.node := fun f hf => by
      obtain ⟨w, hw, hwf⟩ := hread.only f hf
      exact (below w hw).tail hwf.part
    rw [Run.outcome_bind, Run.outcome_steps, ok_bind]
    refine (visitTable_ends hb fun f hf => visitValue_ends (.below (le_refl _) (belowField f hf))
      ?_).imp (fun each => ?_) fun m hm => ?_
    · refine ih tableCost f.node (by decide) (le_refl _) (belowField f hf) (fun h0 => ?_) _
      exact Nat.lt_trans (node_lt_of_tableFields hfs h0 f hf) (lighter fields (Or.inl rfl) h0)
    · refine (iff n).2 ⟨hdeep.1, fun w hw => ?_⟩
      obtain ⟨f, hf, hwf⟩ := hread.each w hw
      exact hwf.reducibleField (each f hf)
    · intro f hf
      obtain ⟨w, hw, hwf⟩ := hread.only f hf
      exact hwf.reducible (((iff m).1 hm).2 w hw)
  | statement exprs =>
    obtain ⟨items, hi, below⟩ :
        ∃ items, Lists table exprs items ∧ ∀ w ∈ items, TransGen (Part table) v w := by
      rcases form_eq_statement.1 hform with ⟨-, entry⟩ | ⟨-, entry⟩ <;>
        exact hv.lists (by decide) entry
    simp only [hform, exists_lists_iff hi] at iff lighter ⊢
    rw [Run.outcome_bind, Run.outcome_ofExcept]
    refine (expressions_ends hi).bind (fun _ _ => trivial) ?_
    rintro es hes rfl -
    cases es with
    | one node =>
      refine (ih singleCost node (by decide) (by decide) (below node List.mem_cons_self)
        (fun h0 => ?_) level).of_iff fun m => ?_
      · exact Nat.lt_of_le_of_lt (weight_one_le hes h0) (lighter exprs (Or.inr (Or.inl rfl)) h0)
      · rw [iff m]
        exact List.forall_mem_singleton.symm
    | several nodes =>
      have each : ∀ w ∈ nodes, Ends (Endless table reach v) n b.Made
          (fun m => Reducible table m level w)
          (visit b table (.int n) (reach - severalCost) level w).outcome := fun w hw => by
        refine ih severalCost w (by decide) (by decide) (below w hw) (fun h0 => ?_) level
        exact Nat.lt_of_le_of_lt
          (Nat.le_trans (weight_le_heaviest hw) (heaviest_several_le hes h0))
          (lighter exprs (Or.inr (Or.inl rfl)) h0)
      simp only [Walk.drawn_eq hb]
      rw [Run.outcome_bind, emit, Run.outcome_step, ok_bind, Run.outcome_bind]
      refine (visitAll_ends each).bind (fun m => (iff m).1) fun rs _ hrs hall => ?_
      exact .ok ((iff n).2 hall) (.sequence hrs)
  | chunk body =>
    have entry := (form_eq_chunk.1 hform).2
    cases body with
    | none =>
      simp only [hform] at iff ⊢
      exact .node fun m => (iff m).1
    | some body =>
      obtain ⟨items, hi, below⟩ := hv.lists (by decide) entry
      simp only [hform, exists_lists_iff hi] at iff lighter ⊢
      rw [Run.outcome_bind, Run.outcome_ofExcept]
      refine (firstStatement?_ends hi).bind (fun _ _ => trivial) ?_
      rintro first hfirst rfl -
      cases items with
      | nil => exact .node fun m hm => by obtain ⟨w, hw, -⟩ := (iff m).1 hm; cases hw
      | cons node rest =>
        refine (ih chunkCost node (by decide) (by decide) (below node List.mem_cons_self)
          (fun h0 => ?_) level).of_iff fun m => ?_
        · exact Nat.lt_trans (weight_firstStatement?_lt hfirst h0)
            (lighter body (Or.inr (Or.inr rfl)) h0)
        · rw [iff m]
          exact ⟨fun h => ⟨node, rfl, h⟩, fun ⟨w, hw, h⟩ => by cases hw; exact h⟩
  | field =>
    simp only [hform] at iff ⊢
    exact .node fun m => (iff m).1
  | unreadable => exact absurd hform hv.form_ne_unreadable
  | other =>
    simp only [hform] at iff ⊢
    exact .misfit _ _ fun m => (iff m).1

/-- A walk ends as the visit of the root does. -/
theorem walk_ends (hb : b.Complete) {tree : Document}
    (shaped : Shaped tree.table tree.root) :
    Ends (Endless tree.table fullReach tree.root) n (fun _ => True)
      (fun m => Reducible tree.table m 0 tree.root) (walk b (.int n) tree).outcome := by
  rw [walk, Run.outcome_bind]
  refine (visit_ends hb.draws fullReach tree.root shaped 0).bind (fun _ => id) fun r _ hr h => ?_
  obtain ⟨s, hs⟩ := hb.finishes r hr
  rw [Run.outcome_bind, emit, Run.outcome_step, ok_bind, Run.outcome_ofExcept, hs]
  exact .ok h trivial

theorem walk_ends_ofValue (hb : b.Complete) (shaped : Shaped [] v) :
    Ends False n (fun _ => True) (fun m => Reducible [] m 0 v)
      (walk b (.int n) (.ofValue v)).outcome := by
  have whole : Shaped (Document.ofValue v).table (Document.ofValue v).root := shaped
  exact (walk_ends hb whole).mono not_endless_nil

/-- A walk under the limit `n`, with a builder that draws all items and never fails itself,
succeeds exactly for the trees of the grammar. Otherwise it fails at the limit, or at a node that
no limit allows. A tree without references never uses up the reach; one with references can, if
it encloses itself or nests very deep, and then the walk fails for that. -/
theorem walk_ok_iff_reducible (hb : b.Complete) {tree : Document}
    (shaped : Shaped tree.table tree.root) (n : Int) :
    ((walk b (.int n) tree).outcome = .error .endless ∧ tree.table ≠ [] ∧
      Nests tree.table 165 tree.root) ∨
    ((∃ r, (walk b (.int n) tree).outcome = .ok r) ↔ Reducible tree.table n 0 tree.root) ∧
      ∀ e, (walk b (.int n) tree).outcome = .error e →
        e = .tooDeep (.int n) ∨
        (∃ problem tag line, e = .node problem tag line) ∧
          ∀ m, ¬ Reducible tree.table m 0 tree.root := by
  rcases (walk_ends (n := n) hb shaped).endless_or with ⟨failed, endless⟩ | ends
  · exact Or.inl ⟨failed, endless.full⟩
  · exact Or.inr ⟨ends.exists_ok_iff, fun _ => ends.of_error⟩

/-- A negative number in a table is two levels deep. -/
theorem walk_ok_iff_reducible_negative :
    let tree := Document.ofValue (chunk [returnStatement
      [tableConstructor [positionalField (neg (numeral (.int 1)))]]])
    (∃ r, (walk .values (.int 2) tree).outcome = .ok r) ∧
      (walk .values (.int 1) tree).outcome = .error (.tooDeep (.int 1)) := by
  intro tree
  have shaped : Shaped tree.table tree.root :=
    shaped_returned (shaped_tableConstructor (List.forall_mem_singleton.2
      (shaped_positionalField (shaped_neg (shaped_constant rfl rfl)))))
  have iff : ∀ n : Int, Reducible tree.table n 0 tree.root ↔ 2 ≤ n := by
    intro n
    have hneg : Reducible [] n 1 (neg (numeral (.int 1))) ↔
        ∃ c, Scalar [] n 1 (neg (numeral (.int 1))) c := reducible_of_isScalar rfl _
    have hone : ∀ c, Scalar [] n 1 (neg (numeral (.int 1))) c ↔
        ((1 + 1 : Nat) : Int) ≤ n ∧ c = .int (-1) := fun c => scalar_neg_numeral
    show Reducible [] n 0 (chunk _) ↔ _
    rw [reducible_returned, reducible_tableConstructor, List.forall_mem_singleton,
      reducibleField_positionalField, hneg]
    simp only [hone, exists_and_left, exists_eq, and_true]
    omega
  refine ⟨?_, ?_⟩
  · rcases walk_ok_iff_reducible Builder.complete_values shaped 2 with ⟨-, h, -⟩ | ⟨h, -⟩
    · exact absurd rfl h
    · exact h.2 ((iff 2).2 (le_refl 2))
  · rcases walk_ok_iff_reducible Builder.complete_values shaped 1 with ⟨-, h, -⟩ | ⟨h, fails⟩
    · exact absurd rfl h
    · cases hx : (walk .values (.int 1) tree).outcome with
      | ok r => exact absurd ((iff 1).1 (h.1 ⟨r, hx⟩)) (by decide)
      | error e =>
        rcases fails e hx with rfl | ⟨-, never⟩
        · rfl
        · exact absurd ((iff 2).2 (le_refl 2)) (never 2)

/-- Of the trees without references a walk succeeds exactly for those of the grammar, and there
is no third way for it to fail. -/
theorem walk_ofValue_ok_iff (hb : b.Complete) (shaped : Shaped [] v) (n : Int) :
    ((∃ r, (walk b (.int n) (.ofValue v)).outcome = .ok r) ↔ Reducible [] n 0 v) ∧
      ∀ e, (walk b (.int n) (.ofValue v)).outcome = .error e →
        e = .tooDeep (.int n) ∨
        (∃ problem tag line, e = .node problem tag line) ∧ ∀ m, ¬ Reducible [] m 0 v :=
  have ends := walk_ends_ofValue (n := n) hb shaped
  ⟨ends.exists_ok_iff, fun _ => ends.of_error⟩

end Node

end LuaData
