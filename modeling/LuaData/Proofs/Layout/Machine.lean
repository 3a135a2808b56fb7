import LuaData.Proofs.Layout.Render

/-
  The layout machine turn by turn. In one turn it takes the piece on top of its stack, writes
  what that piece writes, and puts the parts of the piece in its place (`Piece.turn`); what lies
  below does not matter. A turn leaves what will have been written as it is, and there is one
  document less in the pieces. So the machine stops after as many turns as there are documents in
  the one it is started with, and it has written what that one means.
-/

namespace LuaData

namespace Doc

variable {indent eol : String}

/-- What a piece writes when it is on top, and the pieces that take its place. -/
def Piece.turn (indent eol : String) : Piece → String × List Piece
  | ⟨_, _, .empty⟩ => ("", [])
  | ⟨_, _, .text s⟩ => (s, [])
  | ⟨level, mode, .cons left right⟩ => ("", [⟨level, mode, left⟩, ⟨level, mode, right⟩])
  | ⟨level, mode, .nest levels inner⟩ => ("", [⟨level + levels, mode, inner⟩])
  | ⟨_, .flat, .line flat⟩ => (flat, [])
  | ⟨level, .broken, .line _⟩ => (eol ++ indentation indent level, [])
  | ⟨level, _, .group mode inner⟩ => ("", [⟨level, mode, inner⟩])

/-- What the machine holds: the text that is written, and the pieces that are not. -/
structure Layout where
  out : String
  stack : List Piece

namespace Layout

/-- One turn. With an empty stack there is none. -/
def turn? (indent eol : String) (s : Layout) : Option Layout :=
  match s.stack with
  | [] => none
  | p :: rest => some ⟨s.out ++ (p.turn indent eol).1, (p.turn indent eol).2 ++ rest⟩

/-- So many turns, if the machine does not stop before. -/
def turns? (indent eol : String) : Nat → Layout → Option Layout
  | 0, s => some s
  | n + 1, s => (s.turn? indent eol).bind (turns? indent eol n)

end Layout

/-! ## One turn -/

theorem stackSize_append (before after : List Piece) :
    stackSize (before ++ after) = stackSize before + stackSize after := by
  induction before with
  | nil => rw [List.nil_append, stackSize, Nat.zero_add]
  | cons p rest ih => rw [List.cons_append, stackSize, stackSize, ih, Nat.add_assoc]

/-- The pieces that take the place of a piece hold all its documents but the outermost. -/
theorem size_turn (p : Piece) : p.doc.size = stackSize (p.turn indent eol).2 + 1 := by
  obtain ⟨level, mode, doc⟩ := p
  cases doc with
  | line flat => cases mode <;> rfl
  | empty | text => rfl
  | cons | nest | group => simp only [Piece.turn, stackSize, size]; omega

/-- The machine goes on as it does after a turn. -/
theorem layoutStack_turn (out : String) (p : Piece) (rest : List Piece) :
    layoutStack indent eol out (p :: rest) =
      layoutStack indent eol (out ++ (p.turn indent eol).1) ((p.turn indent eol).2 ++ rest) := by
  obtain ⟨level, mode, doc⟩ := p
  cases doc with
  | line flat =>
    cases mode with
    | flat => rw [layoutStack]; rfl
    | broken => rw [layoutStack, String.append_assoc]; rfl
  | text s => rw [layoutStack]; rfl
  | empty | cons | nest | group =>
    rw [layoutStack, Piece.turn, String.append_empty]
    rfl

/-! ## All turns -/

/-- After as many turns as there are documents in its pieces the machine has an empty stack. -/
theorem turns?_stackSize (s : Layout) : s.turns? indent eol (stackSize s.stack) =
    some ⟨layoutStack indent eol s.out s.stack, []⟩ := by
  generalize hn : stackSize s.stack = n
  induction n generalizing s with
  | zero =>
    obtain ⟨out, stack⟩ := s
    cases stack with
    | nil => rw [layoutStack]; rfl
    | cons p rest =>
      have := size_pos p.doc
      rw [stackSize] at hn
      omega
  | succ n ih =>
    obtain ⟨out, stack⟩ := s
    cases stack with
    | nil => cases hn
    | cons p rest =>
      have hsize := @size_turn indent eol p
      rw [stackSize] at hn
      rw [layoutStack_turn]
      refine ih ⟨_, _⟩ ?_
      rw [stackSize_append]
      omega

/-- The machine comes to an end with every document, after one turn for each document in it, and
what it has written then is what the document means at level zero and in flat mode. -/
theorem layout_renders (indent eol : String) (d : Doc) :
    Layout.turns? indent eol d.size ⟨"", [⟨0, .flat, d⟩]⟩ =
        some ⟨d.render indent eol 0 .flat, []⟩ ∧
      d.layout indent eol = d.render indent eol 0 .flat := by
  refine ⟨?_, layout_eq d⟩
  have hturns := @turns?_stackSize indent eol ⟨"", [⟨0, .flat, d⟩]⟩
  rw [← layout_eq]
  exact hturns

/-- Below level zero a line starts without indentation, and a group has its own mode. -/
example : (Doc.tall (.nest (-2) (.line " " ++ wide (.line " ")) ++ .nest 1 (.line " "))).layout
    "\t" "\r\n" = "\r\n \r\n\t" := by
  cbv

end Doc

end LuaData
