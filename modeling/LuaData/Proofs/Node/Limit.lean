import LuaData.Proofs.Document.Graph
import LuaData.Proofs.Node.Twins

/-
  Raising the limit on nesting. Of two walks over the same data under two limits, the one under
  the lower limit either comes to the same, or fails because of its limit, having taken some of
  the first steps of the other one. This is so wherever the limit is asked, whatever else fails
  before or after, and with every builder, also with one that draws a few items only.
-/

namespace LuaData

/-- The first of two runs may end early because of its limit, and in nothing else do they differ. -/
def Parting.shallower : Parting where
  alike := Eq
  first e := ∃ l, e = .tooDeep l
  second _ := False

namespace Run

variable {σ ρ : Type} {x y : Run σ ρ}

/-- `y` is `x`, unless `x` ended because of its limit; then `y` goes on from the steps of `x`. -/
structure Deepens (x y : Run σ ρ) : Prop where
  same : (∀ l, x.outcome ≠ .error (.tooDeep l)) → y = x
  further : ∀ l, x.outcome = .error (.tooDeep l) → x.trail <+: y.trail

theorem Paired.deepens (h : Paired .shallower Eq x y) : Deepens x y := by
  cases h with
  | ok h => exact ⟨fun _ => by rw [h], fun l hl => by cases hl⟩
  | error h =>
    have h : _ = _ := h
    exact ⟨fun _ => by rw [h], fun l _ => List.prefix_rfl⟩
  | first h early =>
    obtain ⟨l, rfl⟩ := h
    exact ⟨fun hne => absurd rfl (hne l), fun _ _ => early⟩
  | second h early => exact absurd h id

end Run

section Limits

variable {n m : Int}

theorem Value.checkDepth_int (n : Int) (depth : Nat) : (Value.int n).checkDepth depth =
    if (depth : Int) < n then .ok () else .error (.tooDeep (.int n)) := by
  have hcheck : (Value.int n).checkDepth depth =
      if (Number.int n).reachedBy depth then .error (.tooDeep (.int n)) else .ok () := rfl
  rw [hcheck, Number.reachedBy]
  by_cases h : (depth : Int) < n
  · rw [if_pos h, if_neg (by rw [decide_eq_true_eq]; omega)]
  · rw [if_neg h, if_pos (by rw [decide_eq_true_eq]; omega)]

/-- What a lower limit allows a higher one allows as well. -/
theorem agree_of_allowed {A B : Prop} [Decidable A] [Decidable B] (h : A → B) (l l' : Value) :
    Agree .shallower Eq (if A then .ok () else .error (.tooDeep l) : Except Failure Unit)
      (if B then .ok () else .error (.tooDeep l')) := by
  by_cases hA : A
  · rw [if_pos hA, if_pos (h hA)]
    exact .ok rfl
  · rw [if_neg hA]
    exact Agree.first (p := .shallower) ⟨l, rfl⟩ _

theorem checkDepth_agree (h : n ≤ m) (depth : Nat) :
    Agree .shallower Eq ((Value.int n).checkDepth depth) ((Value.int m).checkDepth depth) := by
  rw [Value.checkDepth_int, Value.checkDepth_int]
  exact agree_of_allowed (fun hn => by omega) _ _

theorem checkLevel_agree (h : n ≤ m) (level : Nat) :
    Agree .shallower Eq ((Value.int n).checkLevel level) ((Value.int m).checkLevel level) := by
  rw [Value.checkLevel_int, Value.checkLevel_int]
  exact agree_of_allowed (fun hn => by omega) _ _

end Limits

/-! ## Values -/

namespace Walk

variable {p : Parting} {α β : Type} {b : Builder α β} {table : List Value} {limit limit' : Value}
  {path : List Nat} {depth : Nat}

theorem visitItems_paired {items : List Value}
    (ih : ∀ v ∈ items, Run.Paired p Eq (visitItem b table limit path depth v)
      (visitItem b table limit' path depth v)) :
    Run.Paired p Eq (visitItems b table limit path depth items)
      (visitItems b table limit' path depth items) := by
  induction items with
  | nil =>
    simp only [visitItems]
    exact .pure rfl
  | cons v rest ihs =>
    rw [visitItems, visitItems]
    refine (ih v List.mem_cons_self).bind_same fun r => ?_
    exact (ihs fun w hw => ih w (List.mem_cons_of_mem v hw)).bind_same fun rs => .pure rfl

theorem visitEntries_paired (same : ∀ e, p.alike e e) {entries : List (Value × Value)}
    (ih : ∀ e ∈ entries, Run.Paired p Eq (visit b table limit path depth e.2)
      (visit b table limit' path depth e.2)) :
    Run.Paired p Eq (visitEntries b table limit path depth entries)
      (visitEntries b table limit' path depth entries) := by
  induction entries with
  | nil =>
    simp only [visitEntries]
    exact .pure rfl
  | cons e rest ihs =>
    obtain ⟨k, v⟩ := e
    rw [visitEntries_cons, visitEntries_cons]
    split
    · refine (ih (k, v) List.mem_cons_self).bind_same fun r => .steps_bind _ ?_
      exact (ihs fun w hw => ih w (List.mem_cons_of_mem _ hw)).bind_same fun rs => .pure rfl
    · exact .fail (same _)

theorem sequence_paired {mk : List Value → Value} (hm : Value.IsSequence mk) {items : List Value}
    (level : Agree p Eq (limit.checkDepth depth) (limit'.checkDepth depth))
    (ih : ∀ v ∈ items, Run.Paired p Eq (visitItem b table limit path (depth + 1) v)
      (visitItem b table limit' path (depth + 1) v)) :
    Run.Paired p Eq (visit b table limit path depth (mk items))
      (visit b table limit' path depth (mk items)) := by
  have hvisit : ∀ limit, visit b table limit path depth (mk items) = (do
      .ofExcept (limit.checkDepth depth)
      .step (.startSequence items.length)
      let results ← visitItems b table limit path (depth + 1) (b.drawn items)
      .step (.endSequence (b.sequence results))
      return b.sequence results) := fun limit => by cases hm <;> rw [visit]
  rw [hvisit, hvisit]
  have hitems := visitItems_paired fun v hv => ih v (b.mem_of_mem_drawn hv)
  exact (Run.Paired.ofExcept level).bind_same fun _ =>
    .steps_bind _ (hitems.bind_same fun rs => .steps_bind _ (.pure rfl))

theorem map_paired (same : ∀ e, p.alike e e) {entries : List (Value × Value)}
    (level : Agree p Eq (limit.checkDepth depth) (limit'.checkDepth depth))
    (ih : ∀ e ∈ entries, Run.Paired p Eq (visit b table limit path (depth + 1) e.2)
      (visit b table limit' path (depth + 1) e.2)) :
    Run.Paired p Eq (visit b table limit path depth (.map entries))
      (visit b table limit' path depth (.map entries)) := by
  rw [visit, visit]
  have hentries := visitEntries_paired same fun e he => ih e (b.mem_of_mem_drawn he)
  exact (Run.Paired.ofExcept level).bind_same fun _ =>
    .steps_bind _ (hentries.bind_same fun rs => .steps_bind _ (.pure rfl))

theorem property_paired (same : ∀ e, p.alike e e) {k v : Value}
    (ih : Run.Paired p Eq (visit b table limit path depth v)
      (visit b table limit' path depth v)) :
    Run.Paired p Eq (visitItem b table limit path depth (.property k v))
      (visitItem b table limit' path depth (.property k v)) := by
  rw [visitItem_property, visitItem_property]
  split
  · exact ih.bind_same fun r => .steps_bind _ (.pure rfl)
  · exact .fail (same _)

theorem stuck_paired (same : ∀ e, p.alike e e) {v : Value} (h : Document.Stuck table path v) :
    Run.Paired p Eq (visit b table limit path depth v) (visit b table limit' path depth v) ∧
      Run.Paired p Eq (visitItem b table limit path depth v)
        (visitItem b table limit' path depth v) := by
  cases h with
  | foreign name form =>
    simp only [visitItem, visit]
    exact ⟨.fail (same _), .fail (same _)⟩
  | derived name v =>
    simp only [visitItem, visit]
    exact ⟨.fail (same _), .fail (same _)⟩
  | onPath kind hi =>
    cases kind <;> simp only [visitItem, visit, dif_pos hi] <;>
      exact ⟨.fail (same _), .fail (same _)⟩
  | dangling kind hi hlt =>
    cases kind <;> simp only [visitItem, visit, dif_neg hi, dif_neg hlt] <;>
      exact ⟨.fail (same _), .fail (same _)⟩

/-- Visits of one value under two limits keep together if the limits do. -/
theorem visit_paired (same : ∀ e, p.alike e e)
    (level : ∀ depth, Agree p Eq (limit.checkDepth depth) (limit'.checkDepth depth)) :
    ∀ path v depth,
      Run.Paired p Eq (visit b table limit path depth v) (visit b table limit' path depth v) ∧
      Run.Paired p Eq (visitItem b table limit path depth v)
        (visitItem b table limit' path depth v) := by
  refine Document.unfold_induction table ?leaf ?sequence ?map ?property ?shared ?stuck
  case leaf =>
    intro path v hl depth
    rw [visitItem_leaf hl, visitItem_leaf hl, visit_leaf hl, visit_leaf hl]
    exact ⟨.ok rfl, .ok rfl⟩
  case sequence =>
    intro path mk items hm ih depth
    have key := sequence_paired (b := b) hm (level depth) fun v hv => (ih v hv (depth + 1)).2
    rw [visitItem_sequence hm, visitItem_sequence hm]
    exact ⟨key, key⟩
  case map =>
    intro path entries ih depth
    have key := map_paired (b := b) same (level depth) fun e he => ((ih e he).2 (depth + 1)).1
    rw [visitItem_map, visitItem_map]
    exact ⟨key, key⟩
  case property =>
    intro path k v _ ihv depth
    refine ⟨?_, property_paired same (ihv depth).1⟩
    rw [visit, visit]
    exact .fail (same _)
  case shared =>
    intro path kind i hi hlt ih depth
    -- Which of the two a reference is does not depend on the limit.
    have shared := fun limit => @visit_shared α β b table limit path i hi hlt kind depth
    obtain ⟨hkind, hv, hitem⟩ | ⟨hkind, hv, hitem⟩ := shared limit <;>
      obtain ⟨hkind', hv', hitem'⟩ | ⟨hkind', hv', hitem'⟩ := shared limit'
    · rw [hv, hv', hitem, hitem']
      exact ⟨.fail (same _), (ih depth).2⟩
    · exact absurd hkind hkind'
    · exact absurd hkind' hkind
    · rw [hv, hv', hitem, hitem']
      exact ⟨(ih depth).1, (ih depth).1⟩
  case stuck => exact fun path v hs depth => stuck_paired same hs

end Walk

theorem Document.walk_paired {p : Parting} {α β : Type} (b : Builder α β) {limit limit' : Value}
    (same : ∀ e, p.alike e e)
    (level : ∀ depth, Agree p Eq (limit.checkDepth depth) (limit'.checkDepth depth))
    (d : Document) : Run.Paired p Eq (d.walk b limit) (d.walk b limit') :=
  (Walk.visit_paired same level [] d.root 0).1.bind_same fun _ =>
    .steps_bind _ (.ofExcept (.refl same _))

/-! ## Trees -/

namespace Node

/-- A tree beside itself, under two limits. -/
theorem twins_self {p : Parting} (table : List Value) {limit limit' : Value}
    (same : ∀ e, p.alike e e)
    (level : ∀ level, Agree p Eq (limit.checkLevel level) (limit'.checkLevel level)) :
    Twins p table table limit limit' Eq Eq Eq where
  same := same
  level := level
  follow := by
    rintro v _ reach rfl
    exact (Agree.refl same _).mono fun _ _ _ => trivial
  tag := fun h => by rw [h]
  scalar := by
    rintro v _ rfl
    cases scalarForm (Document.deref table v) <;> constructor <;> rfl
  field := by
    rintro v _ rfl
    cases fieldForm (Document.deref table v) <;> constructor <;> rfl
  form := by
    rintro v _ rfl
    cases form table (Document.deref table v) with
    | chunk body => cases body <;> constructor; rfl
    | _ => constructor <;> rfl
  elements := by
    rintro v _ reach rfl
    exact (Agree.refl same _).mono fun _ _ h => h ▸ List.forall₂_refl _
  expressions := by
    rintro v _ reach rfl
    refine (Agree.refl same _).mono fun es es' h => ?_
    subst h
    cases es with
    | one node => exact .one rfl
    | several nodes => exact .several (List.forall₂_refl nodes)
  first := by
    rintro v _ reach rfl
    refine (Agree.refl same _).mono fun f f' h => ?_
    subst h
    cases f with
    | none => exact .none
    | some node => exact .some rfl
  operator := by
    rintro v _ op op' rfl h h'
    cases h.symm.trans h'
    exact same _
  fault := fun problem h => h ▸ same _
  misfit := fun problem h => h ▸ same _

/-! ## Both walks -/

/-- Raising the limit changes nothing but failures because of the limit. -/
theorem walk_deepens {n m : Int} (h : n ≤ m) {α β : Type} (b : Builder α β) :
    (∀ d : Document, Run.Deepens (d.walk b (.int n)) (d.walk b (.int m))) ∧
      ∀ tree : Document, Run.Deepens (walk b (.int n) tree) (walk b (.int m) tree) := by
  have same : ∀ e, Parting.shallower.alike e e := fun e => rfl
  exact ⟨fun d => (d.walk_paired b same (checkDepth_agree h)).deepens, fun tree =>
    ((twins_self tree.table same (checkLevel_agree h)).walk_paired b rfl).deepens⟩

/-- An empty list in a list, and the tree of an empty table in a table: the limit one is too low,
and two events are made before that is found out. -/
theorem walk_deepens_nested :
    let v : Value := .list [.int 1, .list []]
    let tree : Value := tableConstructor [positionalField (tableConstructor [])]
    ((Document.ofValue v).walk .values (.int 1)).outcome = .error (.tooDeep (.int 1)) ∧
      Run.Deepens ((Document.ofValue v).walk .values (.int 1))
        ((Document.ofValue v).walk .values (.int 2)) ∧
      Run.Deepens (walk .values (.int 1) (.ofValue tree)) (walk .values (.int 2) (.ofValue tree)) := by
  intro v tree
  refine ⟨?_, (walk_deepens (by decide) .values).1 _, (walk_deepens (by decide) .values).2 _⟩
  simp [v, Document.walk, Walk.visit, Walk.visitItems, Walk.visitItem, Document.ofValue,
    Builder.drawn, Builder.values, Value.checkDepth, Value.number?, Value.base, Value.int,
    Number.reachedBy]

end Node

end LuaData
