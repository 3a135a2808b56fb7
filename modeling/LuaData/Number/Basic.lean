import LuaData.Number.Numeral

/-
  Numbers: whole ones of any size and binary64 ones. They compare by value across the two kinds.
-/

namespace LuaData

inductive Number where
  | int (n : Int)
  | float (x : Double)
  deriving DecidableEq

namespace Number

/-- The text of a number. A whole number has one however long it is; a limit on digits, as an
interpreter may have it, is left out. -/
def text : Number → String
  | .int n => toString n
  | .float x => x.text

def negate : Number → Number
  | .int n => .int (-n)
  | .float x => .float x.negate

/-- The sign, which a zero of the floating kind has as well. -/
def isNegative : Number → Bool
  | .int n => n < 0
  | .float (.finite negative _) => negative
  | .float (.infinite negative) => negative
  | .float .nan => false

def isZero : Number → Bool
  | .int n => n = 0
  | .float (.finite _ rank) => rank.val = 0
  | .float _ => false

/-- The nearest binary64 number. -/
def toDouble : Number → Double
  | .int n => .ofInt n
  | .float x => x

/-- The value counted in the smallest binary64 steps, for numbers that are finite. -/
def steps? : Number → Option Int
  | .int n => some (n * Double.one)
  | .float x => x.steps?

/-- Equality by value. A number that is none equals nothing. -/
def same (a b : Number) : Bool :=
  match a.steps?, b.steps? with
  | some m, some n => m = n
  | none, none => match a, b with
    | .float (.infinite s), .float (.infinite t) => s = t
    | _, _ => false
  | _, _ => false

/-- Whether the natural number `n` is at least the number. -/
def reachedBy (bound : Number) (n : Nat) : Bool :=
  match bound with
  | .int b => b ≤ n
  | .float (.infinite negative) => negative
  | .float .nan => false
  | .float x => x.steps?.any fun b => b ≤ n * (Double.one : Int)

/-- Whether the natural number `n` is more than the number. -/
def passedBy (bound : Number) (n : Nat) : Bool :=
  match bound with
  | .int b => b < n
  | .float (.infinite negative) => negative
  | .float .nan => false
  | .float x => x.steps?.any fun b => b < n * (Double.one : Int)

end Number

end LuaData
