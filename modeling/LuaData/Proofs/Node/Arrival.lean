import LuaData.Proofs.Node.Ends
import LuaData.Proofs.Node.Fields

/-
  How far a walk has come. A visit goes on from a node to one of the nodes inside of it after it
  has made some calls (`Enters`), and so on down to any node that is visited at all (`Arrives`).
  If the visit of that node fails, the walk fails with the same failure, and its calls are those
  on the way and those of the visit (`Arrives.told_error`).
-/

namespace LuaData

open Relation (ReflTransGen TransGen)
open Document (Part deref)

/-- A run over a list fails as the run of an item does, after those before it. -/
theorem Run.mapM_error {σ γ δ : Type} {f : γ → Run σ δ} {before after : List γ} {x : γ}
    {earlier trail : List σ} {rs : List δ} {e : Failure}
    (ok : before.mapM f = ⟨earlier, .ok rs⟩) (error : f x = ⟨trail, .error e⟩) :
    (before ++ x :: after).mapM f = ⟨earlier ++ trail, .error e⟩ := by
  rw [List.mapM_append, ok, bind_ok, List.mapM_cons, error]
  rfl

namespace Node

variable {α β : Type} {b : Builder α β} {table : List Value} {limit : Value}
  {reach level : Nat} {v w : Value}

/-- Whether nodes inside of a node are visited. -/
def Form.isOpen : Form → Bool
  | .table _ | .statement _ | .chunk _ => true
  | _ => false

/-! ## One node further -/

/-- The visit of `v` makes some calls and then goes on to a node inside of `v`, at a reach and a
level. What stands before that node has been visited and did not fail. -/
inductive Enters (b : Builder α β) (table : List Value) (limit : Value) (reach level : Nat)
    (v : Value) : List (Event α) → Nat → Nat → Value → Prop
  | first {u body node : Value} (seen : follow table reach v = .ok u)
      (form : form table u = .chunk (some body))
      (first : firstStatement? table reach body = .ok (some node)) :
      Enters b table limit reach level v [] (reach - chunkCost) level node
  | one {u exprs node : Value} (seen : follow table reach v = .ok u)
      (form : form table u = .statement exprs)
      (holds : expressions table reach exprs = .ok (.one node)) :
      Enters b table limit reach level v [] (reach - singleCost) level node
  | several {u exprs node : Value} {nodes before after : List Value} {earlier : List (Event α)}
      {rs : List α} (seen : follow table reach v = .ok u) (form : form table u = .statement exprs)
      (holds : expressions table reach exprs = .ok (.several nodes))
      (drawn : b.drawn nodes = before ++ node :: after)
      (ok : before.mapM (told b table limit (reach - severalCost) level) = ⟨earlier, .ok rs⟩) :
      Enters b table limit reach level v (.startSequence nodes.length :: earlier)
        (reach - severalCost) level node
  | entry {items : List Value} {fs : List Field} {entries before after : List (Value × Value)}
      {e : Value × Value} {earlier : List (Event α)} {rs : List (Value × α)}
      (read : ReadTable table limit reach level v items fs) (named : ByName fs entries)
      (drawn : b.drawn entries = before ++ e :: after)
      (ok : before.mapM (entryOf (toldValue b table limit (reach - tableCost) (level + 1))) =
        ⟨earlier, .ok rs⟩) :
      Enters b table limit reach level v (.startMapping entries.length :: earlier)
        (reach - tableCost) (level + 1) e.2
  | field {items : List Value} {fs before after : List Field} {f : Field}
      {earlier : List (Event α)} {rs : List α}
      (read : ReadTable table limit reach level v items fs)
      (unnamed : ¬ ∃ entries, ByName fs entries)
      (drawn : b.drawn (fs.filter (!·.isAbsent table)) = before ++ f :: after)
      (ok : before.mapM (itemOf b (toldValue b table limit (reach - tableCost) (level + 1))) =
        ⟨earlier, .ok rs⟩) :
      Enters b table limit reach level v
        (.startSequence (fs.filter (!·.isAbsent table)).length :: earlier)
        (reach - tableCost) (level + 1) f.node

/-! ## Calls of the nodes on the way -/

theorem visitAll_eq_mapM {nodes : List Value} :
    (visitAll b table limit reach level nodes).filterSteps Step.event? =
      nodes.mapM (told b table limit reach level) := by
  induction nodes with
  | nil => rw [visitAll]; rfl
  | cons v rest ih =>
    rw [visitAll, List.mapM_cons]
    simp only [Run.filterSteps_bind, ih]
    rfl

theorem told_first {u body node : Value} (seen : follow table reach v = .ok u)
    (form : form table u = .chunk (some body))
    (first : firstStatement? table reach body = .ok (some node)) :
    told b table limit reach level v = told b table limit (reach - chunkCost) level node := by
  rw [told, visit_eq, seen, Run.ofExcept_ok_bind, form]
  simp only [first, Run.ofExcept_ok_bind]
  rfl

theorem told_one {u exprs node : Value} (seen : follow table reach v = .ok u)
    (form : form table u = .statement exprs)
    (holds : expressions table reach exprs = .ok (.one node)) :
    told b table limit reach level v = told b table limit (reach - singleCost) level node := by
  rw [told, visit_eq, seen, Run.ofExcept_ok_bind, form]
  simp only [holds, Run.ofExcept_ok_bind]
  rfl

theorem told_several {u exprs : Value} {nodes : List Value} (seen : follow table reach v = .ok u)
    (form : form table u = .statement exprs)
    (holds : expressions table reach exprs = .ok (.several nodes)) :
    told b table limit reach level v = (do
      Run.step (.startSequence nodes.length)
      let results ← (b.drawn nodes).mapM (told b table limit (reach - severalCost) level)
      Run.step (.endSequence (b.sequence results))
      return b.sequence results) := by
  rw [told, visit_eq, seen, Run.ofExcept_ok_bind, form]
  simp only [holds, Run.ofExcept_ok_bind, Run.filterSteps_bind, visitAll_eq_mapM]
  rfl

theorem toldValue_eq_told (h : (form table (deref table v)).isOpen) :
    toldValue b table limit reach level v = told b table limit reach level v := by
  have plain : ¬ (deref table v).tag?.any Tag.isScalar := by
    intro hs
    obtain ⟨tag, htag, hs⟩ := (Option.any_eq_true _ _).1 hs
    rw [form_eq_scalar.2 ⟨tag, htag, hs⟩] at h
    cases h
  rw [toldValue, visitValue, if_neg plain]
  rfl

variable {earlier trail : List (Event α)} {reach' level' : Nat} {e : Failure}

theorem entryOf_error {value : Value → Run (Event α) α} {entry : Value × Value}
    (h : value entry.2 = ⟨trail, .error e⟩) : entryOf value entry = ⟨trail, .error e⟩ := by
  rw [entryOf, h]
  rfl

theorem itemOf_error {value : Value → Run (Event α) α} {f : Field}
    (h : value f.node = ⟨trail, .error e⟩) : itemOf b value f = ⟨trail, .error e⟩ := by
  cases f with
  | keyed key node =>
    have hnode : value node = ⟨trail, .error e⟩ := h
    rw [itemOf, hnode]
    rfl
  | positional node => exact h

/-- A visit fails as the visit of the node does that it has gone on to. -/
theorem Enters.told_error (h : Enters b table limit reach level v earlier reach' level' w)
    (isOpen : (form table (deref table w)).isOpen)
    (fails : told b table limit reach' level' w = ⟨trail, .error e⟩) :
    told b table limit reach level v = ⟨earlier ++ trail, .error e⟩ := by
  have value : toldValue b table limit reach' level' w = ⟨trail, .error e⟩ :=
    (toldValue_eq_told isOpen).trans fails
  cases h with
  | first seen form first => rw [told_first seen form first, fails]; rfl
  | one seen form holds => rw [told_one seen form holds, fails]; rfl
  | several seen form holds drawn ok =>
    rw [told_several seen form holds, drawn, Run.mapM_error ok fails]
    rfl
  | entry read named drawn ok =>
    rw [read.told_mapping named, mappingOf, drawn, Run.mapM_error ok (entryOf_error value)]
    rfl
  | field read unnamed drawn ok =>
    rw [read.told_sequence unnamed, sequenceOf, drawn, Run.mapM_error ok (itemOf_error value)]
    rfl

/-- A visit goes on to nodes that the visited node leads to. -/
theorem Enters.leads (h : Enters b table limit reach level v earlier reach' level' w) :
    Leads table v w ∧ (form table (deref table v)).isOpen ∧
      ∃ cost, cost ≤ tableCost ∧ reach' = reach - cost := by
  have entered : ∀ {items fs} {f : Field}, ReadTable table limit reach level v items fs →
      f ∈ fs → Leads table v f.node ∧ (form table (deref table v)).isOpen := by
    intro items fs f read hf
    obtain ⟨u, fields, hu, hform, hfs⟩ := read.tableFields
    obtain rfl := eq_deref_of_follow hu
    exact ⟨leads_of_tableFields hform hfs f hf, by rw [hform]; rfl⟩
  cases h with
  | first seen form first =>
    obtain rfl := eq_deref_of_follow seen
    obtain ⟨u, hu, first⟩ := exists_of_bind_ok first
    obtain rfl := eq_deref_of_follow hu
    exact ⟨.first form (Except.ok.inj first), by rw [form]; rfl, chunkCost, by decide, rfl⟩
  | one seen form holds =>
    obtain rfl := eq_deref_of_follow seen
    exact ⟨.expression form (eq_expressionNodes holds ▸ List.mem_singleton_self _),
      by rw [form]; rfl, singleCost, by decide, rfl⟩
  | several seen form holds drawn ok =>
    obtain rfl := eq_deref_of_follow seen
    have hmem := b.mem_of_mem_drawn (drawn ▸ List.mem_append_right _ List.mem_cons_self)
    exact ⟨.expression form (eq_expressionNodes holds ▸ hmem), by rw [form]; rfl, severalCost,
      by decide, rfl⟩
  | @entry _ _ _ _ _ e _ _ read named drawn ok =>
    have hmem := b.mem_of_mem_drawn (drawn ▸ List.mem_append_right _ List.mem_cons_self)
    have hf := entered read (f := .keyed e.1 e.2) (named.fields ▸ List.mem_map_of_mem hmem)
    exact ⟨hf.1, hf.2, tableCost, Nat.le_refl _, rfl⟩
  | field read unnamed drawn ok =>
    have hmem := b.mem_of_mem_drawn (drawn ▸ List.mem_append_right _ List.mem_cons_self)
    have hf := entered read (List.mem_filter.1 hmem).1
    exact ⟨hf.1, hf.2, tableCost, Nat.le_refl _, rfl⟩

theorem Enters.endless (h : Enters b table limit reach level v earlier reach' level' w)
    (isOpen : (form table (deref table w)).isOpen) (endless : Endless table reach' w) :
    Endless table reach v := by
  obtain ⟨leads, -, cost, hcost, rfl⟩ := h.leads
  rcases leads.below with below | ⟨s, rfl⟩
  · exact endless.below hcost below
  · cases isOpen

/-! ## Any number of nodes further -/

/-- The visit of `v` makes some calls and then comes to `w`, at a reach and a level. -/
inductive Arrives (b : Builder α β) (table : List Value) (limit : Value) (reach' level' : Nat)
    (w : Value) : Nat → Nat → Value → List (Event α) → Prop
  | here : Arrives b table limit reach' level' w reach' level' w []
  | step {reach level r l : Nat} {v x : Value} {earlier trail : List (Event α)}
      (enters : Enters b table limit reach level v earlier r l x)
      (onward : Arrives b table limit reach' level' w r l x trail) :
      Arrives b table limit reach' level' w reach level v (earlier ++ trail)

theorem Arrives.isOpen (h : Arrives b table limit reach' level' w reach level v trail)
    (isOpen : (form table (deref table w)).isOpen) : (form table (deref table v)).isOpen := by
  cases h with
  | here => exact isOpen
  | step enters _ => exact enters.leads.2.1

/-- A visit fails as the visit of any node does that it comes to. -/
theorem Arrives.told_error {told' : List (Event α)}
    (h : Arrives b table limit reach' level' w reach level v trail)
    (isOpen : (form table (deref table w)).isOpen)
    (fails : told b table limit reach' level' w = ⟨told', .error e⟩) :
    told b table limit reach level v = ⟨trail ++ told', .error e⟩ := by
  induction h with
  | here => exact fails
  | step enters onward ih =>
    rw [enters.told_error (onward.isOpen isOpen) ih, List.append_assoc]

theorem Arrives.endless (h : Arrives b table limit reach' level' w reach level v trail)
    (isOpen : (form table (deref table w)).isOpen) (endless : Endless table reach' w) :
    Endless table reach v := by
  induction h with
  | here => exact endless
  | step enters onward ih => exact enters.endless (onward.isOpen isOpen) ih

end Node

end LuaData
