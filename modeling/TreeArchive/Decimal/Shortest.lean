import TreeArchive.Decimal.Binary64
import TreeArchive.Decimal.Grouped

/-!
The fewest decimal digits that read back as a double: on the decimal grids of one digit, two digits
and so on the first grid with a point among the reals that round to the double is taken, and of its
points the nearest.
-/
namespace TreeArchive.Decimal

/-- `0.d₁d₂… * 10 ^ point`, without zeros at either end. -/
structure Digits where
  digits : List Char
  point : Int
deriving DecidableEq, Repr

namespace Binary64

/-- The number of places of the whole part, or minus the number of zeros behind the point. -/
def magnitude (num den : Nat) : Int :=
  if den ≤ num then (digits (num / den)).length
  else 1 - (digits ((den + num - 1) / num - 1)).length

/-- `x` times ten to the power `e`, as a quotient. -/
def scaleTen (x : Nat) (e : Int) : Nat × Nat :=
  if e < 0 then (x, Nat.pow 10 (-e).toNat) else (x * Nat.pow 10 e.toNat, 1)

def leRatio (a b : Nat × Nat) : Bool :=
  a.1 * b.2 ≤ b.1 * a.2

def ltRatio (a b : Nat × Nat) : Bool :=
  a.1 * b.2 < b.1 * a.2

/-- The reals that round to `x` lie between these bounds, in units of a quarter of the last place.
-/
def bounds (x : Binary64) : Nat × Nat :=
  (4 * x.mantissa - (if x.mantissa = leading then 1 else 2), 4 * x.mantissa + 2)

def readsBack (x : Binary64) (candidate : Nat × Nat) : Bool :=
  let low := scale x.bounds.1 (x.exponent - 2)
  let high := scale x.bounds.2 (x.exponent - 2)
  if x.mantissa % 2 = 0 then leRatio low candidate && leRatio candidate high
  else ltRatio low candidate && ltRatio candidate high

/-- The point that reads back on the grid with `count` digits; of two the nearer, and of two equally
near the even one. -/
def onGrid? (x : Binary64) (count : Nat) : Option (Nat × Int) :=
  let (num, den) := x.ratio
  -- the grid's step is ten to the power `unit`, and `below` counts the steps up to the value
  let unit := magnitude num den - count
  let (num', den') := scaleTen num (-unit)
  let below := num' / (den' * den)
  let low := x.readsBack (scaleTen below unit)
  let high := x.readsBack (scaleTen (below + 1) unit)
  let rest := 2 * (num' % (den' * den))
  let nearer :=
    if rest < den' * den ∨ rest = den' * den ∧ below % 2 = 0 then below else below + 1
  if low && high then some (nearer, unit)
  else if low then some (below, unit)
  else if high then some (below + 1, unit)
  else none

def trimZeros (n : Nat) (unit : Int) : Digits :=
  let text := digits n
  let kept := (text.reverse.dropWhile (· == '0')).reverse
  ⟨kept, unit + text.length⟩

def shortest (x : Binary64) : Digits :=
  if x.mantissa = 0 then ⟨[], 0⟩
  else
    match (List.range 17).findSome? fun k => x.onGrid? (k + 1) with
    | some (n, unit) => trimZeros n unit
    | none => ⟨[], 0⟩

end Binary64

end TreeArchive.Decimal
