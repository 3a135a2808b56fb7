import LuaData.Proofs.Node.ReadBack
import LuaData.Proofs.Node.Replay
import LuaData.Proofs.Node.Writable
import LuaData.Proofs.Printer.Written

/-
  The printer on one line. A walk hands it what the printer itself has made, out of the parts of
  a value or out of the nodes of a tree, and every document that it makes is texts, one after the
  other. So the loop that puts the texts together meets nothing that it cannot write, and what it
  writes is what the layout machine writes with any indentation and any line end.
-/

namespace LuaData

open Document (Linked)

/-! ## What walks hand over

A value or tree is accepted where a walk succeeds with some builder that draws all items. -/

namespace Document

variable {α β γ δ : Type} {b : Builder α β} {c : Builder γ δ} {limit : Value}

/-- A walk over a value that is accepted hands over what the builder has made. -/
theorem walk_made (hb : b.limit = none) (hc : c.limit = none) {d : Document}
    (hl : Linked d.table d.root) {s : δ} (accepted : (d.walk c limit).outcome = .ok s) :
    ∃ calls r, b.Made r ∧ d.walk b limit = ⟨calls ++ [.root r], b.finish r⟩ := by
  obtain ⟨hdata, hfits, -⟩ := walk_told hc accepted
  exact ⟨_, _, b.made_fold d.unfolded, walk_eq hb hl hdata hfits⟩

end Document

namespace Node

variable {α β γ δ : Type} {b : Builder α β} {c : Builder γ δ} {table : List Value} {limit : Value}

theorem made_of_visit : ∀ reach v level r,
    (visit b table limit reach level v).outcome = .ok r → b.Made r := by
  refine reach_induction fun reach v ih level r h => ?_
  cases visited_of_outcome h with
  | constant form read => exact .constant _
  | table form read onward visit =>
    have parts := visitTable_forall (fun key r hr => Builder.Made.property key hr)
      (fun w hw r hr => by
        obtain ⟨f, hf, rfl⟩ := exists_of_mem_nodes hw
        exact visitValue_forall Builder.Made.constant (ih tableCost f.node (by decide)
          (onward f hf).lighter (level + 1)) hr) visit
    obtain ⟨rs, hrs, rfl⟩ | ⟨rs, hrs, rfl⟩ := parts
    · exact .sequence hrs
    · exact .mapping hrs
  | one form nodes onward visit =>
    exact ih singleCost _ (by decide) onward.lighter level r visit
  | several form spread onward results =>
    refine .sequence fun r hr => ?_
    obtain ⟨w, hw, hr⟩ := exists_part_of_mem_results results r hr
    exact ih severalCost w (by decide) (onward w (b.mem_of_mem_drawn hw)).lighter level r hr
  | first form first onward visit =>
    exact ih chunkCost _ (by decide) onward.lighter level r visit

/-- A walk over a tree that is accepted hands over what the builder has made. -/
theorem walk_made (hb : b.limit = none) (hc : c.limit = none) {tree : Document} {s : δ}
    (accepted : (walk c limit tree).outcome = .ok s) :
    ∃ steps r, b.Made r ∧ walk b limit tree = ⟨steps ++ [.event (.root r)], b.finish r⟩ := by
  obtain ⟨u, hu, -⟩ := Run.exists_of_bind_ok accepted
  obtain ⟨_, _, delivered⟩ := visit_delivered hc fullReach tree.root 0 u hu
  obtain ⟨calls, r, hrun, -⟩ := delivered b hb
  have hr : (visit b tree.table limit fullReach 0 tree.root).outcome = .ok r :=
    congrArg Run.outcome hrun
  refine ⟨(visit b tree.table limit fullReach 0 tree.root).trail, r, made_of_visit _ _ _ r hr, ?_⟩
  rw [walk]
  generalize visit b tree.table limit fullReach 0 tree.root = x at hr
  obtain ⟨trail, outcome⟩ := x
  obtain rfl : outcome = .ok r := hr
  rfl

end Node

/-! ## What is put together -/

namespace Printer

variable {mark : QuoteMark} {limit : Value}

/-- A document is nothing but texts, the loop that puts it together comes to its end, and it has
written what the layout machine writes, with any indentation and any line end. -/
structure Joined (doc : Doc) (text : String) : Prop where
  plain : doc.isPlain
  joined : Doc.joinStack "return " [doc] = some text
  laidOut : ∀ indent eol, (Doc.text "return " ++ doc).layout indent eol = text

theorem joined_of_isPlain {doc : Doc} (h : doc.isPlain) :
    Joined doc ("return " ++ doc.plainText) where
  plain := h
  joined := by
    rw [Doc.joinStack_eq (List.forall_mem_singleton.2 h), List.map_singleton, String.join_cons,
      String.join_nil, String.append_empty]
  laidOut indent eol := by
    rw [Doc.layout_eq, render_append, Doc.render_plain h]
    rfl

theorem finish_compact {doc : Doc} {text : String} (h : Joined doc text) :
    (compact mark).finish doc = .ok text := by
  simp only [compact, h.joined]

/-- Whatever value or tree is accepted, the printer on one line is handed a document of texts at
the end of the walk, and it makes of this document what the layout machine makes of it. -/
theorem compact_joins (mark : QuoteMark) {γ δ : Type} {c : Builder γ δ} (hc : c.limit = none)
    (limit : Value) :
    (∀ (d : Document) (s : δ), Linked d.table d.root → (d.walk c limit).outcome = .ok s →
      ∃ calls doc text, d.walk (compact mark) limit = ⟨calls ++ [.root doc], .ok text⟩ ∧
        Joined doc text) ∧
    ∀ (tree : Document) (s : δ), (Node.walk c limit tree).outcome = .ok s →
      ∃ steps doc text, Node.walk (compact mark) limit tree =
          ⟨steps ++ [.event (.root doc)], .ok text⟩ ∧ Joined doc text := by
  have joins : ∀ doc, (compact mark).Made doc → Joined doc ("return " ++ doc.plainText) :=
    fun doc made => joined_of_isPlain (isPlain_of_made made)
  constructor
  · intro d s hl accepted
    obtain ⟨calls, doc, made, hwalk⟩ :=
      Document.walk_made (b := compact mark) rfl hc hl accepted
    exact ⟨calls, doc, _, hwalk.trans (by rw [finish_compact (joins doc made)]), joins doc made⟩
  · intro tree s accepted
    obtain ⟨steps, doc, made, hwalk⟩ := Node.walk_made (b := compact mark) rfl hc accepted
    exact ⟨steps, doc, _, hwalk.trans (by rw [finish_compact (joins doc made)]), joins doc made⟩

/-- A list with a field that has a key, and the tree of this list. -/
theorem compact_joins_property :
    let v : Value := .list [.property (.int 2) .nil, .tuple []]
    ∃ e, Node.expression v = .ok e ∧
      (∃ calls doc text, (Document.ofValue v).walk (compact .double) (.int 3) =
          ⟨calls ++ [.root doc], .ok text⟩ ∧ Joined doc text) ∧
      ∃ steps doc text, Node.walk (compact .double) (.int 3)
          (.ofValue (Node.chunk [Node.returnStatement [e]])) =
          ⟨steps ++ [.event (.root doc)], .ok text⟩ ∧ Joined doc text := by
  intro v
  have hd : v.IsData := ⟨.list (List.forall_mem_cons.2 ⟨.property rfl rfl (.leaf rfl),
    List.forall_mem_singleton.2 (.tuple fun u hu => absurd hu List.not_mem_nil)⟩), rfl⟩
  obtain ⟨e, he, reads⟩ :=
    (Node.expression_reads (n := 3) hd.1 rfl (by decide +kernel)).1 hd.2
  have read : (Node.walk .values (.int 3)
      (.ofValue (Node.chunk [Node.returnStatement [e]]))).outcome = .ok v.normalForm :=
    reads.returned (by decide)
  have copied : ((Document.ofValue v).walk .values (.int 3)).outcome =
      .ok (.list [.property (.int 2) .nil, .list []]) := by cbv
  have joins := compact_joins .double (c := .values) rfl (.int 3)
  exact ⟨e, he, joins.1 _ _ (Document.linked_ofValue v) copied, joins.2 _ _ read⟩

end Printer

end LuaData
