import LuaData.Value.Document
import LuaData.Text.Shown

/-
  Values as they are shown in messages. Text stands in quotes; `Value.plain` leaves the quotes
  out of a value that is a text.
-/

namespace LuaData

namespace Value

mutual

/-- The shown form. A value inside of itself is shown by three dots. -/
def shown : Value → String
  | .nil => "None"
  | .bool true => "True"
  | .bool false => "False"
  | .number n => n.text
  | .text s => shownText s
  | .list items => "[" ++ shownItems items ++ "]"
  | .tuple [v] => "(" ++ v.shown ++ ",)"
  | .tuple items => "(" ++ shownItems items ++ ")"
  | .map entries => "\x7b" ++ shownEntries entries ++ "\x7d"
  | .property k v => "PropertyEntry(key=" ++ k.shown ++ ", value=" ++ v.shown ++ ")"
  | .foreign _ form => form
  | .derived name (.property k v) =>
    name ++ "(key=" ++ k.shown ++ ", value=" ++ v.shown ++ ")"
  | .derived _ v => v.shown
  | .shared .list _ => "[...]"
  | .shared .tuple _ => "(...)"
  | .shared .map _ => "\x7b...\x7d"
  | .shared .property _ => "..."

def shownItems : List Value → String
  | [] => ""
  | [v] => v.shown
  | v :: rest => v.shown ++ ", " ++ shownItems rest

def shownEntries : List (Value × Value) → String
  | [] => ""
  | [(k, v)] => k.shown ++ ": " ++ v.shown
  | (k, v) :: rest => k.shown ++ ": " ++ v.shown ++ ", " ++ shownEntries rest

end

/-- The shown form, without quotes around a text. -/
def plain (v : Value) : String :=
  match v.text? with
  | some s => s
  | none => v.shown

/-- The shown form of a part of a document, with its references written out. -/
def shownIn (table : List Value) (v : Value) : String :=
  (Document.unfold table [] v).shown

end Value

end LuaData
