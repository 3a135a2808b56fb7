import LuaData.Proofs.Node.Grammar
import LuaData.Proofs.Node.Walk

/-
  How the parts of a walk over a tree end. What is proved of each (`Ends`) asks the grammar under
  the limit of the walk where it succeeds or stops at the limit, and under every limit where a
  node is refused, so that the parts can be put together. A walk without an end in reach has come
  down a long chain of parts (`Endless`), and only of a tree with references: what is proved with
  this way out holds without it of every tree that is written out (`not_endless_nil`).
-/

namespace LuaData

open Relation (ReflTransGen TransGen)
open Document (Part deref)

namespace Node

variable {γ δ : Type} {table : List Value} {n : Int} {reach level : Nat} {v w root : Value}

/-! ## Chains of parts

Looking references up uses reach up only along a chain of parts, and no link of it uses up more
than a table does. -/

/-- That some part of a part of a value, and so on, is `k` parts below it. -/
def Nests (table : List Value) : Nat → Value → Prop
  | 0, _ => True
  | k + 1, v => ∃ w, Part table v w ∧ Nests table k w

theorem Nests.of_succ {k : Nat} (h : Nests table (k + 1) v) : Nests table k v := by
  induction k generalizing v with
  | zero => trivial
  | succ k ih =>
    obtain ⟨w, hw, h⟩ := h
    exact ⟨w, hw, ih h⟩

theorem Nests.mono {j k : Nat} (hjk : j ≤ k) (h : Nests table k v) : Nests table j v := by
  induction hjk with
  | refl => exact h
  | step _ ih => exact ih h.of_succ

theorem Nests.up {k : Nat} (hvw : ReflTransGen (Part table) v w) (h : Nests table k w) :
    Nests table k v := by
  induction hvw using ReflTransGen.head_induction_on with
  | refl => exact h
  | head hx _ ih => exact of_succ ⟨_, hx, ih⟩

/-- That a reach can be used up below a value. -/
structure Endless (table : List Value) (reach : Nat) (v : Value) : Prop where
  shared : table ≠ []
  nests : ∃ k, reach ≤ tableCost * k ∧ Nests table k v

theorem Endless.up (hvw : ReflTransGen (Part table) v w) (h : Endless table reach w) :
    Endless table reach v := by
  obtain ⟨shared, k, hk, nests⟩ := h
  exact ⟨shared, k, hk, nests.up hvw⟩

theorem Endless.below {cost : Nat} (hc : cost ≤ tableCost) (hvw : TransGen (Part table) v w)
    (h : Endless table (reach - cost) w) : Endless table reach v := by
  obtain ⟨shared, k, hk, nests⟩ := h
  obtain ⟨x, hx, hxw⟩ := TransGen.head'_iff.1 hvw
  refine ⟨shared, k + 1, ?_, x, hx, nests.up hxw⟩
  rw [Nat.mul_succ]
  omega

theorem not_endless_nil : ¬ Endless [] reach v := fun h => h.shared rfl

/-- What uses up all of the reach of a walk is a long way down. -/
theorem Endless.full (h : Endless table fullReach v) : table ≠ [] ∧ Nests table 165 v := by
  obtain ⟨shared, k, hk, nests⟩ := h
  have hle : 165 ≤ k := by
    have hfull : (990 : Nat) ≤ 6 * k := hk
    omega
  exact ⟨shared, nests.mono hle⟩

/-! ## How a reading ends -/

/-- How the reading of something can end under the limit `n`, if the limits that it is allowed
under are those with `P`: with a result that is `made`; at the limit, if it is not allowed under
this one; at a node, if it is allowed under none; or without an end in reach, if `E`. -/
inductive Ends (E : Prop) (n : Int) (made : γ → Prop) (P : Int → Prop) : Except Failure γ → Prop
  | ok {r : γ} (allowed : P n) (h : made r) : Ends E n made P (.ok r)
  | tooDeep (h : ¬ P n) : Ends E n made P (.error (.tooDeep (.int n)))
  | node {problem : NodeProblem} {tag : Option String} {line : Option Value}
      (h : ∀ m, ¬ P m) : Ends E n made P (.error (.node problem tag line))
  | endless (h : E) : Ends E n made P (.error .endless)

namespace Ends

variable {E F : Prop} {made : γ → Prop} {made' : δ → Prop} {P Q : Int → Prop}
  {x : Except Failure γ}

/-- What follows is reached only if what comes before is allowed. -/
theorem bind {f : γ → Except Failure δ} (hx : Ends E n made P x) (h : ∀ m, Q m → P m)
    (hf : ∀ r, x = .ok r → made r → P n → Ends E n made' Q (f r)) :
    Ends E n made' Q (x >>= f) := by
  cases hx with
  | @ok r allowed hr => exact hf r rfl hr allowed
  | tooDeep hP => exact .tooDeep fun hQ => hP (h n hQ)
  | node hP => exact .node fun m hQ => hP m (h m hQ)
  | endless hE => exact .endless hE

theorem imp (hx : Ends E n made P x) (hn : P n → Q n) (h : ∀ m, Q m → P m) :
    Ends E n made Q x := by
  cases hx with
  | ok allowed hr => exact .ok (hn allowed) hr
  | tooDeep hP => exact .tooDeep fun hQ => hP (h n hQ)
  | node hP => exact .node fun m hQ => hP m (h m hQ)
  | endless hE => exact .endless hE

theorem of_iff (hx : Ends E n made P x) (h : ∀ m, P m ↔ Q m) : Ends E n made Q x :=
  hx.imp (h n).1 fun m => (h m).2

theorem mono (hx : Ends E n made P x) (h : E → F) : Ends F n made P x := by
  cases hx with
  | ok allowed hr => exact .ok allowed hr
  | tooDeep hP => exact .tooDeep hP
  | node hP => exact .node hP
  | endless hE => exact .endless (h hE)

theorem endless_or (hx : Ends E n made P x) :
    (x = .error .endless ∧ E) ∨ Ends False n made P x := by
  cases hx with
  | ok allowed hr => exact Or.inr (.ok allowed hr)
  | tooDeep hP => exact Or.inr (.tooDeep hP)
  | node hP => exact Or.inr (.node hP)
  | endless hE => exact Or.inl ⟨rfl, hE⟩

theorem exists_ok_iff (hx : Ends False n made P x) : (∃ r, x = .ok r) ↔ P n := by
  cases hx with
  | ok allowed => exact iff_of_true ⟨_, rfl⟩ allowed
  | tooDeep hP => exact iff_of_false nofun hP
  | node hP => exact iff_of_false nofun (hP n)
  | endless hE => exact hE.elim

theorem of_error (hx : Ends False n made P x) {e : Failure} (he : x = .error e) :
    e = .tooDeep (.int n) ∨
      (∃ problem tag line, e = .node problem tag line) ∧ ∀ m, ¬ P m := by
  subst he
  cases hx with
  | tooDeep => exact Or.inl rfl
  | node hP => exact Or.inr ⟨⟨_, _, _, rfl⟩, hP⟩
  | endless hE => exact hE.elim

/-- What a limit allows is refused under another one for its depth only. -/
theorem eq_tooDeep (hx : Ends False n made P x) {m : Int} (hm : P m) (hn : ¬ P n) :
    x = .error (.tooDeep (.int n)) := by
  cases hx with
  | ok allowed => exact absurd allowed hn
  | tooDeep => rfl
  | node hP => exact absurd hm (hP m)
  | endless hE => exact hE.elim

theorem misfit (problem : NodeProblem) (v : Value) (h : ∀ m, ¬ P m) :
    Ends E n made P (.error (Node.misfit table problem v)) := by
  unfold Node.misfit
  split <;> exact .node h

end Ends

/-! ## References and lists -/

/-- References are looked up in vain where no reach is left, whatever is below. -/
theorem follow_ends : Ends (Endless table reach root) n (· = deref table v) (fun _ => True)
    (follow table reach v) := by
  cases h : follow table reach v with
  | ok u => exact .ok trivial (eq_deref_of_follow h)
  | error e =>
    unfold follow at h
    split at h
    · split at h
      · rename_i hi
        split at h <;> cases h
        rename_i h0
        refine .endless ⟨?_, 0, Nat.le_of_eq h0, trivial⟩
        rintro rfl
        cases hi
      · cases h
    · cases h

theorem checkLevel_ends {E : Prop} : Ends E n (fun _ => True) (fun m => (level : Int) ≤ m)
    ((Value.int n).checkLevel level) := by
  rw [Value.checkLevel_int]
  split
  · exact .ok (by assumption) trivial
  · exact .tooDeep (by assumption)

theorem elements_ends {items : List Value} (h : Lists table v items) :
    Ends (Endless table reach root) n (· = items) (fun _ => True) (elements table reach v) := by
  refine follow_ends.bind (fun _ _ => trivial) ?_
  rintro _ - rfl -
  rw [h.elements?]
  exact .ok trivial rfl

theorem expressions_ends {items : List Value} (h : Lists table v items) :
    Ends (Endless table reach root) n (fun es => es.nodes = items) (fun _ => True)
      (expressions table reach v) := by
  refine follow_ends.bind (fun _ _ => trivial) ?_
  rintro _ - rfl -
  have hbase : (deref table v).base = .list items := h
  have hzero : (deref table v).atZero? = items.head? := by
    rw [Value.atZero?, hbase]
    simp only [h.elements?, Option.bind_some]
  rw [h.elements?]
  simp only [hzero]
  split
  · rename_i hone
    obtain ⟨node, rfl⟩ := List.length_eq_one_iff.1 hone
    exact .ok trivial rfl
  · exact .ok trivial rfl

theorem firstStatement?_ends {items : List Value} (h : Lists table v items) :
    Ends (Endless table reach root) n (· = items.head?) (fun _ => True)
      (firstStatement? table reach v) := by
  refine follow_ends.bind (fun _ _ => trivial) ?_
  rintro _ - rfl -
  have hbase : (deref table v).base = .list items := h
  refine .ok trivial ?_
  rw [Value.first?, hbase]
  cases items <;> rfl

/-! ## Constants -/

theorem scalar_ends : ∀ reach v level,
    Ends (Endless table reach v) n (Scalar table n level v) (fun m => ∃ c, Scalar table m level v c)
      (scalar table (.int n) reach level v) := by
  refine reach_induction fun reach v ih level => ?_
  rw [scalar_eq]
  refine follow_ends.bind (fun _ _ => trivial) ?_
  rintro _ hu rfl -
  have iff : ∀ m c, Scalar table m level v c ↔ _ := fun m c => scalar_iff
  cases hform : scalarForm (deref table v) with
  | nil =>
    simp only [hform] at iff ⊢
    exact .ok ⟨_, (iff n _).2 rfl⟩ ((iff n _).2 rfl)
  | constant d =>
    simp only [hform] at iff ⊢
    exact .ok ⟨_, (iff n _).2 rfl⟩ ((iff n _).2 rfl)
  | negation w =>
    simp only [hform] at iff ⊢
    have deep : ∀ m, (∃ c, Scalar table m level v c) → ((level + 1 : Nat) : Int) ≤ m := by
      rintro m ⟨c, hc⟩
      exact ((iff m c).1 hc).1
    have operand : ∀ m, (∃ c, Scalar table m level v c) → ∃ d, Scalar table m (level + 1) w d := by
      rintro m ⟨c, hc⟩
      obtain ⟨-, d, -, hd, -⟩ := (iff m c).1 hc
      exact ⟨d, hd⟩
    refine checkLevel_ends.bind deep fun _ _ _ hlevel => ?_
    have hpart : Part table v w :=
      Has.part (v := v) (scalarForm_eq_negation.1 hform).2.2
    refine ((ih negationCost w (by decide) (fun h0 => ?_) (level + 1)).mono
      (.below (by decide) (.single hpart))).bind operand ?_
    · have hlt := weight_operand_lt hform
      rwa [eq_of_follow hu h0] at hlt
    · intro d _ hd _
      cases hnum : d.properNumber? with
      | some k =>
        have hc := (iff n _).2 ⟨hlevel, d, k, hd, hnum, rfl⟩
        exact .ok ⟨_, hc⟩ hc
      | none =>
        refine .node ?_
        rintro m ⟨c, hc⟩
        obtain ⟨-, d', k, hd', hnum', -⟩ := (iff m c).1 hc
        rw [hd'.unique hd, hnum] at hnum'
        cases hnum'
  | operator op =>
    simp only [hform] at iff ⊢
    refine .node ?_
    rintro m ⟨c, hc⟩
    exact (iff m c).1 hc
  | other =>
    simp only [hform] at iff ⊢
    refine .misfit _ _ ?_
    rintro m ⟨c, hc⟩
    exact (iff m c).1 hc

/-! ## Fields -/

/-- The fields that a node is read as at a level. -/
inductive ReadAs (table : List Value) (n : Int) (level : Nat) (v : Value) : Field → Prop
  | keyed {k w c : Value} (form : fieldForm (deref table v) = .keyed k w)
      (constant : Scalar table n level k c) (isKey : isKey c) :
      ReadAs table n level v (.keyed c w)
  | positional {w : Value} (form : fieldForm (deref table v) = .positional w) :
      ReadAs table n level v (.positional w)

namespace ReadAs

variable {f : Field}

theorem reducibleField (h : ReadAs table n level v f) (hf : Reducible table n level f.node) :
    ReducibleField table n level v := by
  rw [reducibleField_iff]
  cases h with
  | keyed form constant isKey => rw [form]; exact ⟨⟨_, constant, isKey⟩, hf⟩
  | positional form => rw [form]; exact hf

theorem reducible {m : Int} (h : ReadAs table n level v f)
    (hv : ReducibleField table m level v) : Reducible table m level f.node := by
  rw [reducibleField_iff] at hv
  cases h with
  | keyed form => rw [form] at hv; exact hv.2
  | positional form => rw [form] at hv; exact hv

end ReadAs

theorem ReducibleField.exists_readAs (h : ReducibleField table n level v) :
    ∃ f, ReadAs table n level v f := by
  rw [reducibleField_iff] at h
  cases hform : fieldForm (deref table v) with
  | keyed k w =>
    rw [hform] at h
    obtain ⟨⟨c, constant, isKey⟩, -⟩ := h
    exact ⟨_, .keyed hform constant isKey⟩
  | positional w => exact ⟨_, .positional hform⟩
  | other => rw [hform] at h; exact h.elim

theorem ReadAs.part {f : Field} (h : ReadAs table n level v f) : Part table v f.node := by
  cases h with
  | keyed form => exact mem_parts_of_fieldForm (Or.inl ⟨_, Or.inr form⟩)
  | positional form => exact mem_parts_of_fieldForm (Or.inr form)

theorem readField_ends : Ends (Endless table reach v) n (ReadAs table n level v)
    (fun m => ∃ f, ReadAs table m level v f) (readField table (.int n) reach level v) := by
  refine follow_ends.bind (fun _ _ => trivial) ?_
  rintro _ - rfl -
  cases hform : fieldForm (deref table v) with
  | keyed k w =>
    have key : ∀ m, (∃ f, ReadAs table m level v f) → ∃ c, Scalar table m level k c ∧ isKey c := by
      rintro m ⟨f, hf⟩
      cases hf with
      | keyed form constant isKey =>
        rw [hform] at form
        cases form
        exact ⟨_, constant, isKey⟩
      | positional form => rw [hform] at form; cases form
    have hpart : Part table v k := Has.part (v := v) (fieldForm_eq_keyed.1 hform).2.1
    refine ((scalar_ends reach k level).mono (.up (.single hpart))).bind
      (fun m hm => (key m hm).imp fun _ h => h.1) ?_
    intro c _ hc _
    by_cases isKey : isKey c
    · rw [if_pos isKey]
      exact .ok ⟨_, .keyed hform hc isKey⟩ (.keyed hform hc isKey)
    · rw [if_neg isKey]
      refine .node fun m hm => ?_
      obtain ⟨d, hd, hkey⟩ := key m hm
      exact isKey (hd.unique hc ▸ hkey)
  | positional w => exact .ok ⟨_, .positional hform⟩ (.positional hform)
  | other =>
    refine .misfit _ _ ?_
    rintro m ⟨f, hf⟩
    cases hf with
    | keyed form => rw [hform] at form; cases form
    | positional form => rw [hform] at form; cases form

/-- The fields that some nodes are read as: one for each node, and no other. -/
structure ReadAll (table : List Value) (n : Int) (level : Nat) (items : List Value)
    (fs : List Field) : Prop where
  each : ∀ v ∈ items, ∃ f ∈ fs, ReadAs table n level v f
  only : ∀ f ∈ fs, ∃ v ∈ items, ReadAs table n level v f

theorem ReadAll.cons {f : Field} {items : List Value} {fs : List Field}
    (h : ReadAs table n level v f) (hs : ReadAll table n level items fs) :
    ReadAll table n level (v :: items) (f :: fs) := by
  refine ⟨List.forall_mem_cons.2 ⟨⟨f, List.mem_cons_self, h⟩, fun w hw => ?_⟩,
    List.forall_mem_cons.2 ⟨⟨v, List.mem_cons_self, h⟩, fun g hg => ?_⟩⟩
  · obtain ⟨g, hg, hw⟩ := hs.each w hw
    exact ⟨g, List.mem_cons_of_mem _ hg, hw⟩
  · obtain ⟨w, hw, hg⟩ := hs.only g hg
    exact ⟨w, List.mem_cons_of_mem _ hw, hg⟩

theorem readFields_ends {items : List Value} (hp : ∀ v ∈ items, Part table root v) :
    Ends (Endless table reach root) n (ReadAll table n level items)
      (fun m => ∀ v ∈ items, ∃ f, ReadAs table m level v f)
      (readFields table (.int n) reach level items) := by
  induction items with
  | nil =>
    exact .ok (fun v hv => absurd hv List.not_mem_nil)
      ⟨fun v hv => absurd hv List.not_mem_nil, fun f hf => absurd hf List.not_mem_nil⟩
  | cons v rest ih =>
    refine (readField_ends.mono (.up (.single (hp v List.mem_cons_self)))).bind
      (fun m hm => hm v List.mem_cons_self) fun f _ hf hv => ?_
    refine (ih fun w hw => hp w (List.mem_cons_of_mem _ hw)).bind
      (fun m hm w hw => hm w (List.mem_cons_of_mem _ hw)) fun fs _ hfs hrest => ?_
    exact .ok (List.forall_mem_cons.2 ⟨hv, hrest⟩) (hfs.cons hf)

theorem tableFields_ends {fields : Value} {items : List Value} (h : Lists table fields items) :
    Ends (Endless table reach fields) n (ReadAll table n level items)
      (fun m => (level : Int) ≤ m ∧ ∀ v ∈ items, ∃ f, ReadAs table m level v f)
      (tableFields table (.int n) reach level fields) := by
  refine checkLevel_ends.bind (fun m hm => hm.1) fun _ _ _ hlevel => ?_
  refine (elements_ends h).bind (fun _ _ => trivial) ?_
  rintro _ - rfl -
  exact (readFields_ends fun _ => h.part).imp (fun hall => ⟨hlevel, hall⟩) fun m hm => hm.2

end Node

end LuaData
