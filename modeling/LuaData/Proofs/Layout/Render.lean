import LuaData.Layout.Doc
import Mathlib

/-
  Layout and meaning. The machine that lays documents out works on a stack of pieces; what it
  writes is what the pieces mean, one after the other. The machine for documents without breaks
  writes the same, whatever the indentation and the mode.
-/

namespace LuaData

namespace Doc

variable {indent eol : String}

/-- What a stack of pieces means. -/
def renderStack (indent eol : String) (stack : List Piece) : String :=
  String.join (stack.map fun p => p.doc.render indent eol p.level p.mode)

theorem renderStack_cons (level : Int) (mode : Mode) (doc : Doc) (rest : List Piece) :
    renderStack indent eol (⟨level, mode, doc⟩ :: rest) =
      doc.render indent eol level mode ++ renderStack indent eol rest := by
  rw [renderStack, List.map_cons, String.join_cons]
  rfl

/-- The machine writes what the pieces mean. -/
theorem layoutStack_eq (out : String) (stack : List Piece) :
    layoutStack indent eol out stack = out ++ renderStack indent eol stack := by
  fun_induction layoutStack indent eol out stack with
  | case1 out => rw [renderStack, List.map_nil, String.join_nil, String.append_empty]
  | case2 out level mode rest ih => rw [ih, renderStack_cons, render, String.empty_append]
  | case3 out level mode rest left right ih =>
    rw [ih, renderStack_cons, renderStack_cons, renderStack_cons, render, String.append_assoc]
  | case4 out level mode rest levels inner ih =>
    rw [ih, renderStack_cons, renderStack_cons, render]
  | case5 out level mode rest s ih =>
    rw [ih, renderStack_cons, render, String.append_assoc]
  | case6 out level rest flat ih =>
    rw [ih, renderStack_cons, render, String.append_assoc]
  | case7 out level rest flat ih =>
    rw [ih, renderStack_cons, render, String.append_assoc, String.append_assoc,
      String.append_assoc]
  | case8 out level mode rest mode' inner ih =>
    rw [ih, renderStack_cons, renderStack_cons, render]

theorem layout_eq (d : Doc) : d.layout indent eol = d.render indent eol 0 .flat := by
  rw [layout, layoutStack_eq, renderStack_cons, String.empty_append, renderStack, List.map_nil,
    String.join_nil, String.append_empty]

/-! ## Documents without breaks -/

/-- Whether a document is only texts, one after the other. -/
def isPlain : Doc → Bool
  | .empty | .text _ => true
  | .cons left right => left.isPlain && right.isPlain
  | _ => false

/-- The text of a document without breaks. -/
def plainText : Doc → String
  | .text s => s
  | .cons left right => left.plainText ++ right.plainText
  | .empty | .nest .. | .line _ | .group .. => ""

theorem render_plain {d : Doc} (h : d.isPlain) (level : Int) (mode : Mode) :
    d.render indent eol level mode = d.plainText := by
  induction d with
  | empty => rfl
  | text s => rfl
  | cons left right ihl ihr =>
    rw [isPlain, Bool.and_eq_true] at h
    rw [render, ihl h.1, ihr h.2, plainText]
  | _ => cases h

/-- The machine for documents without breaks writes their texts. -/
theorem joinStack_eq {out : String} {docs : List Doc} (h : ∀ d ∈ docs, d.isPlain) :
    joinStack out docs = some (out ++ String.join (docs.map plainText)) := by
  fun_induction joinStack out docs with
  | case1 out => rw [List.map_nil, String.join_nil, String.append_empty]
  | case2 out rest ih =>
    rw [ih fun d hd => h d (List.mem_cons_of_mem _ hd), List.map_cons, String.join_cons,
      plainText, String.empty_append]
  | case3 out s rest ih =>
    rw [ih fun d hd => h d (List.mem_cons_of_mem _ hd), List.map_cons, String.join_cons,
      plainText, String.append_assoc]
  | case4 out left right rest ih =>
    have hplain := h _ List.mem_cons_self
    rw [isPlain, Bool.and_eq_true] at hplain
    rw [ih (List.forall_mem_cons.2 ⟨hplain.1, List.forall_mem_cons.2
        ⟨hplain.2, fun d hd => h d (List.mem_cons_of_mem _ hd)⟩⟩),
      List.map_cons, List.map_cons, List.map_cons, String.join_cons, String.join_cons,
      String.join_cons, plainText, String.append_assoc]
  | case5 out docs h1 h2 h3 h4 =>
    cases docs with
    | nil => exact absurd rfl h1
    | cons d rest =>
      have hplain := h d List.mem_cons_self
      cases d with
      | empty => exact absurd rfl (h2 rest)
      | text s => exact absurd rfl (h3 s rest)
      | cons left right => exact absurd rfl (h4 left right rest)
      | _ => cases hplain

end Doc

end LuaData
