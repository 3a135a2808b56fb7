import LuaData.Layout.Doc
import LuaData.Text.Quoted
import LuaData.Value.Show
import LuaData.Walk.Builder

/-
  The builders that write data as a Lua chunk which returns it: on one line, or with one table
  field per line.
-/

namespace LuaData

namespace Printer

/-- The literal of a constant. What has no literal of its own is written as it is shown. -/
def constant (mark : QuoteMark) (c : Value) : Doc :=
  match c.base with
  | .nil => .text "nil"
  | .bool b => .text (if b then "true" else "false")
  | .text s => .text (quote mark s)
  | .number (.float .nan) => .text "0/0"
  | .number (.float (.infinite false)) => .text "math.huge"
  | .number (.float (.infinite true)) => .text "-" ++ .text "math.huge"
  | .number n => .text n.text
  | _ => .text c.plain

/-- The key of a table field that is named by a text. -/
def keyText (mark : QuoteMark) (key : Value) : String :=
  match key.text? with
  | some s => writtenKey mark s
  | none => "[" ++ key.plain ++ "]"

def named (mark : QuoteMark) (assign : String) (field : Value × Doc) : Doc :=
  .text (keyText mark field.1) ++ .text assign ++ field.2

def bracketed (mark : QuoteMark) (assign : String) (key : Value) (value : Doc) : Doc :=
  .text "[" ++ constant mark key ++ .text "]" ++ .text assign ++ value

/-- Fields between braces, all on one line. -/
def compactTable (fields : List Doc) : Doc :=
  .text "\x7b" ++ fields.foldl (fun acc d => acc ++ (d ++ .text ",")) .empty ++ .text "\x7d"

/-- Fields between braces, one on each line. -/
def tallTable (fields : List Doc) : Doc :=
  if fields.isEmpty then .text "\x7b\x7d"
  else
    Doc.tall (.text "\x7b"
      ++ .nest 1 (fields.foldl (fun acc d => acc ++ (.line "" ++ d ++ .text ",")) .empty)
      ++ .line "" ++ .text "\x7d")

/-- Writes everything on one line. -/
def compact (mark : QuoteMark) : Builder Doc String where
  limit := none
  constant := constant mark
  sequence := compactTable
  mapping fields := compactTable (fields.map (named mark "="))
  property := bracketed mark "="
  finish doc :=
    match Doc.joinStack "return " [doc] with
    | some s => .ok s
    | none => .error .brokenLine

/-- Writes one table field on each line. -/
def tall (mark : QuoteMark) (indent eol : String) : Builder Doc String where
  limit := none
  constant := constant mark
  sequence := tallTable
  mapping fields := tallTable (fields.map (named mark " = "))
  property := bracketed mark " = "
  finish doc := .ok ((Doc.text "return " ++ doc).layout indent eol)

/-- The printer with one field on each line, which needs a text to indent with. -/
def tall? (mark : QuoteMark) (indent eol : String) : Except Failure (Builder Doc String) :=
  if indent = "" then .error .emptyIndent else .ok (tall mark indent eol)

end Printer

end LuaData
