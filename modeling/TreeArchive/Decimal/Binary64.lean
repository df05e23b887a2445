/-!
Doubles that are finite and not negative, as `mantissa * 2 ^ exponent`, and their rounded
arithmetic: each operation gives the nearest double to the exact result, a tie going to the even
mantissa.
-/
namespace TreeArchive.Decimal

/-- The quotient rounded to the nearest number, a half to the even one. -/
def roundDiv (num den : Nat) : Nat :=
  let quotient := num / den
  let rest := num % den
  if 2 * rest < den then quotient
  else if 2 * rest = den then quotient + quotient % 2
  else quotient + 1

structure Binary64 where
  mantissa : Nat
  exponent : Int
deriving DecidableEq, Repr, Inhabited

namespace Binary64

def zero : Binary64 := ⟨0, 0⟩

/-- The mantissa's highest bit. -/
def leading : Nat := 1 <<< 52

/-- `x * 2 ^ e` as a quotient. -/
def scale (x : Nat) (e : Int) : Nat × Nat :=
  if e < 0 then (x, 1 <<< (-e).toNat) else (x <<< e.toNat, 1)

def ratio (x : Binary64) : Nat × Nat :=
  scale x.mantissa x.exponent

/-- The double nearest to `num / den`; the mantissa of a result other than zero has 53 bits. -/
def ofRatio (num den : Nat) : Binary64 :=
  if num = 0 ∨ den = 0 then zero
  else
    -- by the logarithms the exponent is this one or one less
    let guess : Int := (num.log2 : Int) - den.log2 - 52
    let (num', den') := scale num (-guess)
    let exponent := if num' / (den' * den) < leading then guess - 1 else guess
    let (num', den') := scale num (-exponent)
    let mantissa := roundDiv num' (den' * den)
    if mantissa = 2 * leading then ⟨leading, exponent + 1⟩ else ⟨mantissa, exponent⟩

def ofNat (n : Nat) : Binary64 :=
  ofRatio n 1

def div (x y : Binary64) : Binary64 :=
  ofRatio (x.ratio.1 * y.ratio.2) (x.ratio.2 * y.ratio.1)

def mul (x y : Binary64) : Binary64 :=
  ofRatio (x.ratio.1 * y.ratio.1) (x.ratio.2 * y.ratio.2)

/-- The interchange format's 64 bits. -/
def bits (x : Binary64) : Nat :=
  if x.mantissa = 0 then 0
  else (x.exponent + 1075).toNat * leading + (x.mantissa - leading)

end Binary64

end TreeArchive.Decimal
