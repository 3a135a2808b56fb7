/-
  Documents with line breaks. There is no width to fit: a group breaks all of its breaks or none.
  Indentation is counted in levels and written with any text as its unit. `Doc.layout` works on
  a stack of pieces; `Doc.render` says what each piece means.
-/

namespace LuaData

/-- Whether the breaks of a group are line ends. -/
inductive Mode where
  | flat
  | broken
  deriving DecidableEq

inductive Doc where
  | empty
  | text (s : String)
  | cons (left right : Doc)
  | nest (levels : Int) (doc : Doc)
  /-- A break, with the text that it is in flat mode. -/
  | line (flat : String)
  | group (mode : Mode) (doc : Doc)

namespace Doc

instance : Append Doc := ⟨.cons⟩

/-- A group whose breaks are line ends. -/
def tall (d : Doc) : Doc := .group .broken d

/-- A group on one line. -/
def wide (d : Doc) : Doc := .group .flat d

def size : Doc → Nat
  | .empty | .text _ | .line _ => 1
  | .cons left right => 1 + left.size + right.size
  | .nest _ doc => 1 + doc.size
  | .group _ doc => 1 + doc.size

theorem size_pos (d : Doc) : 0 < d.size := by
  cases d <;> simp only [size] <;> omega

/-- A piece of a document that is still to be written. -/
structure Piece where
  level : Int
  mode : Mode
  doc : Doc

def stackSize : List Piece → Nat
  | [] => 0
  | p :: rest => p.doc.size + stackSize rest

/-- Indentation for a level; below level zero there is none. -/
def indentation (unit : String) (level : Int) : String :=
  String.join (List.replicate level.toNat unit)

/-- Writes the pieces of a stack after `out`. -/
def layoutStack (indent eol : String) (out : String) : List Piece → String
  | [] => out
  | ⟨level, mode, doc⟩ :: rest =>
    match doc with
    | .empty => layoutStack indent eol out rest
    | .cons left right =>
      layoutStack indent eol out (⟨level, mode, left⟩ :: ⟨level, mode, right⟩ :: rest)
    | .nest levels inner => layoutStack indent eol out (⟨level + levels, mode, inner⟩ :: rest)
    | .text s => layoutStack indent eol (out ++ s) rest
    | .line flat =>
      match mode with
      | .flat => layoutStack indent eol (out ++ flat) rest
      | .broken => layoutStack indent eol (out ++ eol ++ indentation indent level) rest
    | .group mode inner => layoutStack indent eol out (⟨level, mode, inner⟩ :: rest)
termination_by stack => stackSize stack
decreasing_by all_goals (simp only [stackSize, size]; omega)

/-- The text of a document. -/
def layout (indent eol : String) (d : Doc) : String :=
  layoutStack indent eol "" [⟨0, .flat, d⟩]

/-- What a document means at a level and in a mode. -/
def render (indent eol : String) (level : Int) (mode : Mode) : Doc → String
  | .empty => ""
  | .text s => s
  | .cons left right => left.render indent eol level mode ++ right.render indent eol level mode
  | .nest levels doc => doc.render indent eol (level + levels) mode
  | .line flat =>
    match mode with
    | .flat => flat
    | .broken => eol ++ indentation indent level
  | .group mode doc => doc.render indent eol level mode

/-- The text of a stack of documents without breaks, written after `out`. -/
def joinStack (out : String) : List Doc → Option String
  | [] => some out
  | .empty :: rest => joinStack out rest
  | .text s :: rest => joinStack (out ++ s) rest
  | .cons left right :: rest => joinStack out (left :: right :: rest)
  | _ => none
termination_by stack => stack.foldr (fun d n => d.size + n) 0
decreasing_by all_goals (simp only [List.foldr_cons, size]; omega)

end Doc

end LuaData
