/-!
# Whole numbers as doubles

A double has 53 significant bits.  A whole number is rounded to the nearest one, and a number
halfway between two goes to the one whose last bit is zero.  From a certain number on the nearest
double is infinite.
-/

namespace Linkage.Json.Double

/-- How many significant bits a double has. -/
def precision : Nat := 53

/-- The distance between the doubles around a number, where these are whole. -/
def unit (n : Nat) : Nat :=
  Nat.pow 2 (n.log2 + 1 - precision)

/-- The double nearest to a number, infinity aside. -/
def nearest (n : Nat) : Nat :=
  let below := n / unit n
  let excess := n % unit n
  if unit n < 2 * excess ∨ (unit n = 2 * excess ∧ below % 2 = 1) then (below + 1) * unit n
  else below * unit n

/-- The least number that rounds to infinity, halfway between the largest double and the power
of two after it. -/
def overflow : Nat := Nat.pow 2 1024 - Nat.pow 2 970

/-- The largest power of ten that is finite as a double. -/
def maxPower : Nat := 308

/-- Is the product of a number and a power of ten finite, when both factors are rounded before
they are multiplied? -/
def scalesTo (n power : Nat) : Bool :=
  power ≤ maxPower && nearest n * nearest (Nat.pow 10 power) < overflow

end Linkage.Json.Double
