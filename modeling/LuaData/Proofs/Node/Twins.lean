import LuaData.Proofs.Node.Walk
import LuaData.Proofs.Walk.Paired

/-
  Two walks over trees side by side. `Twins` says what the nodes of two trees have to share, and
  what two limits do, so that the walks keep together: a part of one tree comes with a part of
  the other one, their forms are the same and the parts of these come together again. Neither
  what the parts hold besides nor why one walk may end early is looked at here.
-/

namespace LuaData

open Document (deref)

namespace Node

/-! ## Forms side by side -/

section Forms

variable (nodes lists bodies : Value → Value → Prop)

/-- Two nodes for a constant, which may be in different tables. -/
inductive ScalarForm.Beside (table table' : List Value) : ScalarForm → ScalarForm → Prop
  | nil : Beside table table' .nil .nil
  | constant {c c' : Value} (h : Document.unfold table [] c = Document.unfold table' [] c') :
      Beside table table' (.constant c) (.constant c')
  | negation {v w : Value} (h : nodes v w) : Beside table table' (.negation v) (.negation w)
  | operator (op op' : Value) : Beside table table' (.operator op) (.operator op')
  | other : Beside table table' .other .other

inductive FieldForm.Beside : FieldForm → FieldForm → Prop
  | keyed {k l v w : Value} (hk : nodes k l) (h : nodes v w) : Beside (.keyed k v) (.keyed l w)
  | positional {v w : Value} (h : nodes v w) : Beside (.positional v) (.positional w)
  | other : Beside .other .other

inductive Form.Beside : Form → Form → Prop
  | scalar : Beside .scalar .scalar
  | table {v w : Value} (h : lists v w) : Beside (.table v) (.table w)
  | statement {v w : Value} (h : lists v w) : Beside (.statement v) (.statement w)
  | chunk {v w : Value} (h : bodies v w) : Beside (.chunk (some v)) (.chunk (some w))
  | noBody : Beside (.chunk none) (.chunk none)
  | field : Beside .field .field
  | unreadable : Beside .unreadable .unreadable
  | other : Beside .other .other

inductive Expressions.Beside : Expressions → Expressions → Prop
  | one {v w : Value} (h : nodes v w) : Beside (.one v) (.one w)
  | several {vs ws : List Value} (h : List.Forall₂ nodes vs ws) :
      Beside (.several vs) (.several ws)

inductive Field.Beside : Field → Field → Prop
  | keyed (key : Value) {v w : Value} (h : nodes v w) : Beside (.keyed key v) (.keyed key w)
  | positional {v w : Value} (h : nodes v w) : Beside (.positional v) (.positional w)

inductive Table.Beside : Table → Table → Prop
  | mapping {vs ws : List (Value × Value)}
      (h : List.Forall₂ (fun e f => e.1 = f.1 ∧ nodes e.2 f.2) vs ws) :
      Beside (.mapping vs) (.mapping ws)
  | sequence {vs ws : List Field} (h : List.Forall₂ (Field.Beside nodes) vs ws) :
      Beside (.sequence vs) (.sequence ws)

end Forms

namespace Field

variable {nodes : Value → Value → Prop} {fs gs : List Field}

theorem map_eq {γ : Type} {f g : Field → γ} (h : List.Forall₂ (Field.Beside nodes) fs gs)
    (hfg : ∀ x y, Field.Beside nodes x y → f x = g y) : fs.map f = gs.map g :=
  List.forall₂_eq_eq_eq ▸ List.rel_map (fun x y hxy => hfg x y hxy) h

theorem isNamed_eq {x y : Field} (h : Field.Beside nodes x y) : x.isNamed = y.isNamed := by
  cases h <;> rfl

theorem isKeyed_eq {x y : Field} (h : Field.Beside nodes x y) : x.isKeyed = y.isKeyed := by
  cases h <;> rfl

theorem all_isNamed_eq (h : List.Forall₂ (Field.Beside nodes) fs gs) :
    fs.all Field.isNamed = gs.all Field.isNamed := by
  have hmap := map_eq h fun x y => isNamed_eq
  simpa only [List.all_map, Function.id_comp] using congrArg (List.all · id) hmap

theorem isEmpty_eq (h : List.Forall₂ (Field.Beside nodes) fs gs) : fs.isEmpty = gs.isEmpty := by
  cases h <;> rfl

theorem head_isKeyed_eq (h : List.Forall₂ (Field.Beside nodes) fs gs) :
    fs.head?.any Field.isKeyed = gs.head?.any Field.isKeyed := by
  cases h with
  | nil => rfl
  | cons h _ => exact isKeyed_eq h

end Field

/-! ## Walks over parts side by side

Each of these keeps together where the visits of the nodes in it do. -/

section Parts

variable {p : Parting} {table table' : List Value} {limit limit' : Value}
  {nodes : Value → Value → Prop} {α β : Type} (b : Builder α β) {reach level : Nat}

theorem forall₂_drawn {γ δ : Type} {R : γ → δ → Prop} {vs : List γ} {ws : List δ}
    (h : List.Forall₂ R vs ws) : List.Forall₂ R (b.drawn vs) (b.drawn ws) := by
  unfold Builder.drawn
  split
  · exact List.forall₂_take _ h
  · exact h

theorem visitAll_paired {vs ws : List Value} (h : List.Forall₂ nodes vs ws)
    (ih : ∀ v ∈ vs, ∀ w, nodes v w → Run.Paired p Eq (visit b table limit reach level v)
      (visit b table' limit' reach level w)) :
    Run.Paired p Eq (visitAll b table limit reach level vs)
      (visitAll b table' limit' reach level ws) := by
  induction h with
  | nil =>
    simp only [visitAll]
    exact .pure rfl
  | @cons v w vs ws hvw _ ihs =>
    rw [visitAll, visitAll]
    refine (ih v List.mem_cons_self w hvw).bind_same fun r => ?_
    exact (ihs fun x hx => ih x (List.mem_cons_of_mem v hx)).bind_same fun rs => .pure rfl

theorem visitEntries_paired {vs ws : List (Value × Value)}
    (h : List.Forall₂ (fun e f => e.1 = f.1 ∧ nodes e.2 f.2) vs ws)
    (ih : ∀ v ∈ vs.map Prod.snd, ∀ w, nodes v w →
      Run.Paired p Eq (visitValue b table limit reach level v)
        (visitValue b table' limit' reach level w)) :
    Run.Paired p Eq (visitEntries b table limit reach level vs)
      (visitEntries b table' limit' reach level ws) := by
  induction h with
  | nil =>
    simp only [visitEntries]
    exact .pure rfl
  | @cons e f vs ws hef _ ihs =>
    obtain ⟨key, v⟩ := e
    obtain ⟨key', w⟩ := f
    obtain ⟨hkey, hvw⟩ : key = key' ∧ nodes v w := hef
    subst hkey
    rw [visitEntries, visitEntries]
    refine (ih v List.mem_cons_self w hvw).bind_same fun r => .steps_bind _ ?_
    exact (ihs fun x hx => ih x (List.mem_cons_of_mem v hx)).bind_same fun rs => .pure rfl

theorem visitFields_paired {vs ws : List Field} (h : List.Forall₂ (Field.Beside nodes) vs ws)
    (ih : ∀ v ∈ vs.map Field.node, ∀ w, nodes v w →
      Run.Paired p Eq (visitValue b table limit reach level v)
        (visitValue b table' limit' reach level w)) :
    Run.Paired p Eq (visitFields b table limit reach level vs)
      (visitFields b table' limit' reach level ws) := by
  induction h with
  | nil =>
    simp only [visitFields]
    exact .pure rfl
  | @cons f g vs ws hfg _ ihs =>
    have ihrest := ihs fun x hx => ih x (List.mem_cons_of_mem f.node hx)
    cases hfg with
    | @keyed key v w hvw =>
      rw [visitFields, visitFields]
      refine (ih v List.mem_cons_self w hvw).bind_same fun r => .steps_bind _ ?_
      exact ihrest.bind_same fun rs => .pure rfl
    | @positional v w hvw =>
      rw [visitFields, visitFields]
      refine (ih v List.mem_cons_self w hvw).bind_same fun r => ?_
      exact ihrest.bind_same fun rs => .pure rfl

/-- Sequences that are announced alike and whose items keep together. -/
theorem sequence_paired {x y : Run (Step α) (List α)} (h : Run.Paired p Eq x y) (n : Nat) :
    Run.Paired p Eq
      (do emit (.startSequence n)
          let results ← x
          emit (.endSequence (b.sequence results))
          return b.sequence results)
      (do emit (.startSequence n)
          let results ← y
          emit (.endSequence (b.sequence results))
          return b.sequence results) :=
  .steps_bind _ (h.bind_same fun _ => .steps_bind _ (.pure rfl))

theorem visitTable_paired {s t : Table} (h : s.Beside nodes t)
    (ih : ∀ v ∈ s.nodes, ∀ w, nodes v w →
      Run.Paired p Eq (visitValue b table limit reach level v)
        (visitValue b table' limit' reach level w)) :
    Run.Paired p Eq (visitTable b table limit reach level s)
      (visitTable b table' limit' reach level t) := by
  cases h with
  | @mapping vs ws h =>
    rw [visitTable, visitTable, h.length_eq]
    have hentries := visitEntries_paired b (forall₂_drawn b h) fun v hv => by
      obtain ⟨e, he, rfl⟩ := List.mem_map.1 hv
      exact ih e.2 (List.mem_map_of_mem (b.mem_of_mem_drawn he))
    exact .steps_bind _ (hentries.bind_same fun rs => .steps_bind _ (.pure rfl))
  | @sequence vs ws h =>
    rw [visitTable, visitTable, h.length_eq]
    refine sequence_paired b (visitFields_paired b (forall₂_drawn b h) fun v hv => ?_) _
    obtain ⟨f, hf, rfl⟩ := List.mem_map.1 hv
    exact ih f.node (List.mem_map_of_mem (b.mem_of_mem_drawn hf))

end Parts

/-- Two tables and limits, and which parts of trees stand side by side: nodes, lists of nodes,
and the bodies of chunks. An operator can be shown differently in the two tables, so the failures
for operators that are not read are asked for on their own. -/
structure Twins (p : Parting) (table table' : List Value) (limit limit' : Value)
    (nodes lists bodies : Value → Value → Prop) : Prop where
  same : ∀ e, p.alike e e
  level : ∀ level, Agree p Eq (limit.checkLevel level) (limit'.checkLevel level)
  follow : ∀ {v w} reach, nodes v w →
    Agree p (fun _ _ => True) (follow table reach v) (follow table' reach w)
  tag : ∀ {v w}, nodes v w → (deref table v).tagText? = (deref table' w).tagText?
  scalar : ∀ {v w}, nodes v w →
    (scalarForm (deref table v)).Beside nodes table table' (scalarForm (deref table' w))
  field : ∀ {v w}, nodes v w →
    (fieldForm (deref table v)).Beside nodes (fieldForm (deref table' w))
  form : ∀ {v w}, nodes v w →
    (form table (deref table v)).Beside lists bodies (form table' (deref table' w))
  elements : ∀ {v w} reach, lists v w →
    Agree p (List.Forall₂ nodes) (elements table reach v) (elements table' reach w)
  expressions : ∀ {v w} reach, lists v w →
    Agree p (Expressions.Beside nodes) (expressions table reach v) (expressions table' reach w)
  first : ∀ {v w} reach, bodies v w →
    Agree p (Option.Rel nodes) (firstStatement? table reach v) (firstStatement? table' reach w)
  operator : ∀ {v w op op'}, nodes v w → scalarForm (deref table v) = .operator op →
    scalarForm (deref table' w) = .operator op' →
    p.alike (fault table (.badOperator (op.shownIn table)) v)
      (fault table' (.badOperator (op'.shownIn table')) w)
  fault : ∀ {v w} problem, nodes v w → p.alike (fault table problem v) (fault table' problem w)
  misfit : ∀ {v w} problem, nodes v w →
    p.alike (misfit table problem v) (misfit table' problem w)

namespace Twins

variable {p : Parting} {table table' : List Value} {limit limit' : Value}
  {nodes lists bodies : Value → Value → Prop}
  (tw : Twins p table table' limit limit' nodes lists bodies)
include tw

/-! ## Constants and fields -/

theorem scalar_agree : ∀ reach v level w, nodes v w →
    Agree p Eq (Node.scalar table limit reach level v)
      (Node.scalar table' limit' reach level w) := by
  refine reach_induction fun reach v ih level w h => ?_
  rw [scalar_eq, scalar_eq]
  refine (tw.follow reach h).bind fun u u' hu hu' _ => ?_
  obtain rfl := eq_deref_of_follow hu
  obtain rfl := eq_deref_of_follow hu'
  have hforms := tw.scalar h
  cases hv : scalarForm (deref table v) <;> cases hw : scalarForm (deref table' w) <;>
    rw [hv, hw] at hforms <;> cases hforms
  case nil.nil => exact .ok rfl
  case constant.constant hc => exact .ok hc
  case negation.negation x y hxy =>
    refine (tw.level (level + 1)).bind fun _ _ _ _ _ => ?_
    have operand := ih negationCost x (by decide) (fun h0 => ?_) (level + 1) y hxy
    · refine operand.bind fun c c' _ _ hc => ?_
      subst hc
      cases c.properNumber? with
      | none => exact .error (tw.fault .badOperand h)
      | some n => exact .ok rfl
    · exact Nat.lt_of_lt_of_eq (weight_operand_lt hv) (congrArg Value.weight (eq_of_follow hu h0))
  case operator.operator op op' => exact .error (tw.operator h hv hw)
  case other.other => exact .error (tw.misfit .notLiteral h)

theorem readField_agree (reach level : Nat) {v w : Value} (h : nodes v w) :
    Agree p (Field.Beside nodes) (readField table limit reach level v)
      (readField table' limit' reach level w) := by
  refine (tw.follow reach h).bind fun u u' hu hu' _ => ?_
  obtain rfl := eq_deref_of_follow hu
  obtain rfl := eq_deref_of_follow hu'
  have hforms := tw.field h
  cases hv : fieldForm (deref table v) <;> cases hw : fieldForm (deref table' w) <;>
    rw [hv, hw] at hforms <;> cases hforms
  case keyed.keyed k x l y hk hxy =>
    refine (tw.scalar_agree reach k level l hk).bind fun c c' _ _ hc => ?_
    subst hc
    by_cases hkey : isKey c
    · simp only [if_pos hkey]
      exact .ok (.keyed c hxy)
    · simp only [if_neg hkey]
      exact .error (tw.fault .badKey hk)
  case positional.positional hxy => exact .ok (.positional hxy)
  case other.other => exact .error (tw.misfit .notField h)

theorem readFields_agree (reach level : Nat) {vs ws : List Value} (h : List.Forall₂ nodes vs ws) :
    Agree p (List.Forall₂ (Field.Beside nodes)) (readFields table limit reach level vs)
      (readFields table' limit' reach level ws) := by
  induction h with
  | nil => exact .ok .nil
  | cons h _ ih =>
    refine (tw.readField_agree reach level h).bind fun f g _ _ hf => ?_
    exact ih.bind fun fs gs _ _ hfs => .ok (.cons hf hfs)

theorem tableFields_agree (reach level : Nat) {v w : Value} (h : lists v w) :
    Agree p (List.Forall₂ (Field.Beside nodes)) (tableFields table limit reach level v)
      (tableFields table' limit' reach level w) :=
  (tw.level level).bind fun _ _ _ _ _ => (tw.elements reach h).bind fun _ _ _ _ hs =>
    tw.readFields_agree reach level hs

/-! ## Tables -/

theorem isAbsent_eq {f g : Field} (h : Field.Beside nodes f g) :
    f.isAbsent table = g.isAbsent table' := by
  cases h with
  | keyed key h => rfl
  | positional h => rw [Field.isAbsent, Field.isAbsent, tw.tag h]

theorem ofFields_beside {fs gs : List Field} (h : List.Forall₂ (Field.Beside nodes) fs gs) :
    (Table.ofFields table fs).Beside nodes (Table.ofFields table' gs) := by
  have hentries : List.Forall₂ (fun e f => e.1 = f.1 ∧ nodes e.2 f.2)
      (fs.filterMap Field.entry?) (gs.filterMap Field.entry?) := by
    refine List.rel_filterMap (fun f g hfg => ?_) h
    cases hfg with
    | keyed key h => exact .some ⟨rfl, h⟩
    | positional h => exact .none
  have hpresent : List.Forall₂ (Field.Beside nodes) (fs.filter (!·.isAbsent table))
      (gs.filter (!·.isAbsent table')) :=
    List.rel_filter (fun f g hfg => by simp only [tw.isAbsent_eq hfg]) h
  rw [Table.ofFields, Table.ofFields, ← Field.all_isNamed_eq h, ← Field.isEmpty_eq h]
  split
  · exact .mapping hentries
  · exact .sequence hpresent

theorem notes_eq {fs gs : List Field} (h : List.Forall₂ (Field.Beside nodes) fs gs) :
    Table.notes table fs = Table.notes table' gs := by
  have habsent : fs.countP (Field.isAbsent table) = gs.countP (Field.isAbsent table') := by
    have hmap := Field.map_eq h fun f g => tw.isAbsent_eq
    simpa only [List.countP_map, Function.id_comp] using congrArg (List.countP id) hmap
  rw [Table.notes, Table.notes, Field.all_isNamed_eq h, Field.isEmpty_eq h, habsent,
    Field.head_isKeyed_eq h]

/-! ## Visits -/

variable {α β : Type} (b : Builder α β) {reach level : Nat}

theorem visitValue_paired {v w : Value} (h : nodes v w)
    (ih : Run.Paired p Eq (visit b table limit reach level v)
      (visit b table' limit' reach level w)) :
    Run.Paired p Eq (visitValue b table limit reach level v)
      (visitValue b table' limit' reach level w) := by
  have htag : (deref table v).tag? = (deref table' w).tag? := by
    rw [Value.tag?, Value.tag?, tw.tag h]
  rw [visitValue, visitValue, htag]
  split
  · have hscalar := tw.scalar_agree reach v level w h
    exact (Run.Paired.ofExcept hscalar).bind_same fun c => .steps_bind _ (.pure rfl)
  · exact ih

/-- The visits of nodes that stand side by side keep together. -/
theorem visit_paired : ∀ reach v level w, nodes v w →
    Run.Paired p Eq (visit b table limit reach level v) (visit b table' limit' reach level w) := by
  refine reach_induction fun reach v ih level w h => ?_
  rw [visit_eq, visit_eq]
  refine (Run.Paired.ofExcept (tw.follow reach h)).bind fun u u' hu hu' _ => ?_
  obtain rfl := eq_deref_of_follow hu
  obtain rfl := eq_deref_of_follow hu'
  have hforms := tw.form h
  cases hv : Node.form table (deref table v) <;> cases hw : Node.form table' (deref table' w) <;>
    rw [hv, hw] at hforms <;> cases hforms
  case scalar.scalar =>
    have hscalar := tw.scalar_agree reach v level w h
    exact (Run.Paired.ofExcept hscalar).bind_same fun c => .steps_bind _ (.pure rfl)
  case table.table fields fields' hfields =>
    refine (Run.Paired.ofExcept (tw.tableFields_agree reach (level + 1) hfields)).bind
      fun fs gs hfs _ hfg => ?_
    rw [tw.notes_eq hfg]
    refine .steps_bind _ (visitTable_paired b (tw.ofFields_beside hfg) fun x hx y hxy => ?_)
    obtain ⟨f, hf, rfl⟩ := exists_of_mem_nodes hx
    exact tw.visitValue_paired b hxy
      (ih tableCost f.node (by decide) (field_lighter hu hv hfs hf) _ y hxy)
  case statement.statement exprs exprs' hexprs =>
    refine (Run.Paired.ofExcept (tw.expressions reach hexprs)).bind fun es es' hes _ hee => ?_
    cases hee with
    | @one x y hxy =>
      exact ih singleCost x (by decide) (one_lighter hu hv hes) level y hxy
    | @several xs ys hxs =>
      dsimp only
      rw [hxs.length_eq]
      refine sequence_paired b (visitAll_paired b (forall₂_drawn b hxs) fun x hx => ?_) _
      exact ih severalCost x (by decide)
        (several_lighter hu hv hes (b.mem_of_mem_drawn hx)) level
  case chunk.chunk.chunk body body' hbody =>
    refine (Run.Paired.ofExcept (tw.first reach hbody)).bind fun f f' hf _ hff => ?_
    cases hff with
    | none => exact .fail (tw.fault .emptyChunk h)
    | @some x y hxy =>
      exact ih chunkCost x (by decide) (first_lighter hu hv hf) level y hxy
  case chunk.chunk.noBody => exact .fail (tw.fault .emptyChunk h)
  case field.field => exact .fail (tw.fault .fieldOutsideTable h)
  case unreadable.unreadable => exact .fail (tw.same _)
  case other.other => exact .fail (tw.misfit .notReducible h)

/-- Walks over trees whose roots stand side by side keep together. -/
theorem walk_paired {root root' : Value} (h : nodes root root') :
    Run.Paired p Eq (walk b limit ⟨table, root⟩) (walk b limit' ⟨table', root'⟩) :=
  (tw.visit_paired b fullReach root 0 root' h).bind_same fun _ =>
    .steps_bind _ (.ofExcept (.refl tw.same _))

end Twins

end Node

end LuaData
