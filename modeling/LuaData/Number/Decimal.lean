import LuaData.Number.Double

/-
  Decimal numerals: a whole number of digits and a power of ten. `Decimal.rank` rounds one to
  the nearest binary64 magnitude, and `Decimal.shortest` is the one with the fewest digits that
  rounds to a given magnitude.
-/

namespace LuaData

/-- The number `digits * 10 ^ exponent`. -/
structure Decimal where
  digits : Nat
  exponent : Int
  deriving DecidableEq

namespace Decimal

/-- How many decimal digits a number is written with; zero has none. -/
def digitCount (n : Nat) : Nat :=
  if n = 0 then 0 else digitCount (n / 10) + 1

/-- The value as a quotient, counted in the smallest binary64 steps. -/
def ratio (d : Decimal) : Nat × Nat :=
  (d.digits * Double.one * Nat.pow 10 d.exponent.toNat, Nat.pow 10 (-d.exponent).toNat)

/-- The rank of the nearest binary64 magnitude. Numerals far outside of the finite range are
told by their leading place, without working out the power. -/
def rank (d : Decimal) : Nat :=
  let place := (digitCount d.digits : Int) + d.exponent
  if d.digits = 0 ∨ place < -400 then 0
  else if 400 < place then 0x7FF0000000000000
  else Double.nearestRank d.ratio.1 d.ratio.2

/-- The place of the leading digit: the least `p` with the magnitude below `10 ^ p`. -/
def leadingPlace (units : Nat) : Int :=
  if Double.one ≤ units then digitCount (units / Double.one)
  else 1 - (digitCount ((Double.one - 1) / units) : Int)

/-- The numeral of a magnitude on the grid of `10 ^ exponent`, if a neighbour of the magnitude
rounds back to it: of two the nearer, and on a tie the even one. -/
def onGrid? (target : Nat) (exponent : Int) : Option Decimal :=
  let num := Double.units target * Nat.pow 10 (-exponent).toNat
  let den := Double.one * Nat.pow 10 exponent.toNat
  let low : Decimal := ⟨num / den, exponent⟩
  let high : Decimal := ⟨num / den + 1, exponent⟩
  let near : Decimal := ⟨Double.roundQuotient num den, exponent⟩
  if near.rank = target then some near
  else if low.rank = target then some low
  else if high.rank = target then some high
  else none

/-- The exact value of a magnitude. -/
def exact (target : Nat) : Decimal :=
  ⟨Double.units target * Nat.pow 5 1074, -1074⟩

/-- The numeral with the fewest digits, at most seventeen, that rounds to a magnitude, and of
those the nearest one. -/
def shortest (target : Nat) : Decimal :=
  let place := leadingPlace (Double.units target)
  ((List.range 17).findSome? fun n => onGrid? target (place - (n + 1 : Nat))).getD (exact target)

end Decimal

end LuaData
