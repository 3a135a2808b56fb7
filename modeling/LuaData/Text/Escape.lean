import LuaData.Value.Basic

/-
  Making the text of a Lua string safe to embed in another document. Doubled backslashes are
  doubled once more, the two-character sequences for a carriage return and a newline get one
  more backslash, and a newline becomes the sequence for it.
-/

namespace LuaData

/-- Replaces each pair `a`, `b`, found from left to right, by other characters. -/
def replacePair (a b : Char) (other : List Char) : List Char → List Char
  | [] => []
  | [c] => [c]
  | c :: d :: rest =>
    if c = a ∧ d = b then other ++ replacePair a b other rest
    else c :: replacePair a b other (d :: rest)

def replaceNewlines (cs : List Char) : List Char :=
  cs.flatMap fun c => if c = '\n' then ['\\', 'n'] else [c]

/-- The four replacements, one after the other. -/
def escapeChars (cs : List Char) : List Char :=
  replaceNewlines
    (replacePair '\\' 'n' ['\\', '\\', 'n']
      (replacePair '\\' 'r' ['\\', '\\', 'r']
        (replacePair '\\' '\\' ['\\', '\\', '\\', '\\'] cs)))

def escapeText (s : String) : String :=
  String.ofList (escapeChars s.toList)

/-- A text made safe to embed; any other value as it is. -/
def Value.escaped (v : Value) : Value :=
  match v.text? with
  | some s => .text (escapeText s)
  | none => v

theorem toList_escapeText (s : String) : (escapeText s).toList = escapeChars s.toList := by
  simp [escapeText]

end LuaData
