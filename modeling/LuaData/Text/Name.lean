/-
  The shape of names: a letter of ASCII or an underscore, then letters, digits and underscores.
-/

namespace LuaData

def isNameStart (c : Char) : Bool :=
  c.isAlpha || c = '_'

def isNameRest (c : Char) : Bool :=
  c.isAlphanum || c = '_'

def isNameChars : List Char → Bool
  | [] => false
  | c :: cs => isNameStart c && cs.all isNameRest

/-- Whether a text has the shape of a name. -/
def isName (s : String) : Bool :=
  isNameChars s.toList

end LuaData
