import LuaData.Proofs.Node.Walk

/-
  What the visits of the parts of a tree have come to where the whole succeeded: one result for
  each part that is drawn, in their order. So what is true of the result of every part is true of
  all results.
-/

namespace LuaData

open Document (deref)

namespace Node

variable {α β : Type} {b : Builder α β} {table : List Value} {limit : Value}
  {reach level : Nat} {v : Value}

/-! ## One result for each part -/

/-- What is built for a field out of the result for its node. -/
def Field.built (b : Builder α β) (r : α) : Field → α
  | .keyed key _ => b.property key r
  | .positional _ => r

theorem visitAll_results {nodes : List Value} {rs : List α}
    (h : (visitAll b table limit reach level nodes).outcome = .ok rs) :
    List.Forall₂ (fun w r => (visit b table limit reach level w).outcome = .ok r) nodes rs := by
  induction nodes generalizing rs with
  | nil => rw [visitAll] at h; cases h; exact .nil
  | cons w rest ih =>
    rw [visitAll] at h
    obtain ⟨r, hr, h⟩ := Run.exists_of_bind_ok h
    obtain ⟨rs', hrs, h⟩ := Run.exists_of_bind_ok h
    cases h
    exact .cons hr (ih hrs)

theorem visitEntries_results {entries : List (Value × Value)} {rs : List (Value × α)}
    (h : (visitEntries b table limit reach level entries).outcome = .ok rs) :
    List.Forall₂ (fun e r => r.1 = e.1 ∧
      (visitValue b table limit reach level e.2).outcome = .ok r.2) entries rs := by
  induction entries generalizing rs with
  | nil => rw [visitEntries] at h; cases h; exact .nil
  | cons e rest ih =>
    obtain ⟨key, node⟩ := e
    rw [visitEntries] at h
    obtain ⟨r, hr, h⟩ := Run.exists_of_bind_ok h
    obtain ⟨⟨⟩, -, h⟩ := Run.exists_of_bind_ok h
    obtain ⟨rs', hrs, h⟩ := Run.exists_of_bind_ok h
    cases h
    exact .cons ⟨rfl, hr⟩ (ih hrs)

theorem visitFields_results {fields : List Field} {rs : List α}
    (h : (visitFields b table limit reach level fields).outcome = .ok rs) :
    List.Forall₂ (fun f r => ∃ s,
      (visitValue b table limit reach level f.node).outcome = .ok s ∧ r = f.built b s)
      fields rs := by
  induction fields generalizing rs with
  | nil => rw [visitFields] at h; cases h; exact .nil
  | cons f rest ih =>
    cases f with
    | keyed key node =>
      rw [visitFields] at h
      obtain ⟨r, hr, h⟩ := Run.exists_of_bind_ok h
      obtain ⟨⟨⟩, -, h⟩ := Run.exists_of_bind_ok h
      obtain ⟨rs', hrs, h⟩ := Run.exists_of_bind_ok h
      cases h
      exact .cons ⟨r, hr, rfl⟩ (ih hrs)
    | positional node =>
      rw [visitFields] at h
      obtain ⟨r, hr, h⟩ := Run.exists_of_bind_ok h
      obtain ⟨rs', hrs, h⟩ := Run.exists_of_bind_ok h
      cases h
      exact .cons ⟨r, hr, rfl⟩ (ih hrs)

theorem visitMapping_results {entries : List (Value × Value)} {r : α}
    (h : (visitTable b table limit reach level (.mapping entries)).outcome = .ok r) :
    ∃ rs, r = b.mapping rs ∧ List.Forall₂ (fun e r => r.1 = e.1 ∧
      (visitValue b table limit reach level e.2).outcome = .ok r.2) (b.drawn entries) rs := by
  rw [visitTable] at h
  obtain ⟨⟨⟩, -, h⟩ := Run.exists_of_bind_ok h
  obtain ⟨rs, hrs, h⟩ := Run.exists_of_bind_ok h
  cases h
  exact ⟨rs, rfl, visitEntries_results hrs⟩

theorem visitSequence_results {fields : List Field} {r : α}
    (h : (visitTable b table limit reach level (.sequence fields)).outcome = .ok r) :
    ∃ rs, r = b.sequence rs ∧ List.Forall₂ (fun f r => ∃ s,
      (visitValue b table limit reach level f.node).outcome = .ok s ∧ r = f.built b s)
      (b.drawn fields) rs := by
  rw [visitTable] at h
  obtain ⟨⟨⟩, -, h⟩ := Run.exists_of_bind_ok h
  obtain ⟨rs, hrs, h⟩ := Run.exists_of_bind_ok h
  cases h
  exact ⟨rs, rfl, visitFields_results hrs⟩

/-! ## What is true of all results -/

theorem exists_part_of_mem_results {γ δ : Type} {R : γ → δ → Prop} {parts : List γ} {rs : List δ}
    (h : List.Forall₂ R parts rs) : ∀ r ∈ rs, ∃ x ∈ parts, R x r := by
  induction h with
  | nil => exact List.forall_mem_nil _
  | @cons x r _ _ hr _ ih =>
    refine List.forall_mem_cons.2 ⟨⟨x, List.mem_cons_self, hr⟩, fun s hs => ?_⟩
    obtain ⟨y, hy, h⟩ := ih s hs
    exact ⟨y, List.mem_cons_of_mem _ hy, h⟩

variable {P : α → Prop}

theorem visitValue_forall (hc : ∀ c, P (b.constant c))
    (ih : ∀ r, (visit b table limit reach level v).outcome = .ok r → P r) {r : α}
    (h : (visitValue b table limit reach level v).outcome = .ok r) : P r := by
  rw [visitValue] at h
  split at h
  · obtain ⟨c, -, h⟩ := Run.exists_of_bind_ok h
    cases h
    exact hc _
  · exact ih r h

/-- What is true of the parts of a table that is read is true of what is built from them. -/
theorem visitTable_forall {parts : Table} (hp : ∀ key r, P r → P (b.property key r))
    (ih : ∀ w ∈ parts.nodes, ∀ r, (visitValue b table limit reach level w).outcome = .ok r → P r)
    {r : α} (h : (visitTable b table limit reach level parts).outcome = .ok r) :
    (∃ rs, (∀ r ∈ rs, P r) ∧ r = b.sequence rs) ∨
      ∃ rs, (∀ e ∈ rs, P e.2) ∧ r = b.mapping rs := by
  cases parts with
  | mapping entries =>
    obtain ⟨rs, rfl, hrs⟩ := visitMapping_results h
    refine Or.inr ⟨rs, fun r hr => ?_, rfl⟩
    obtain ⟨e, he, -, hr⟩ := exists_part_of_mem_results hrs r hr
    exact ih e.2 (List.mem_map_of_mem (b.mem_of_mem_drawn he)) r.2 hr
  | sequence fields =>
    obtain ⟨rs, rfl, hrs⟩ := visitSequence_results h
    refine Or.inl ⟨rs, fun r hr => ?_, rfl⟩
    obtain ⟨f, hf, s, hs, rfl⟩ := exists_part_of_mem_results hrs r hr
    have hP := ih f.node (List.mem_map_of_mem (b.mem_of_mem_drawn hf)) s hs
    cases f with
    | keyed key node => exact hp key s hP
    | positional node => exact hP

end Node

end LuaData
