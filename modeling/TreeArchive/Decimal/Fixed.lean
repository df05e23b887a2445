import TreeArchive.Decimal.Binary64
import TreeArchive.Decimal.Grouped

/-! A double with one decimal place, rounded from its exact value, a half to the even digit. -/
namespace TreeArchive.Decimal

def Binary64.tenths (x : Binary64) : Nat :=
  roundDiv (10 * x.ratio.1) x.ratio.2

def Binary64.fixed (x : Binary64) : String :=
  String.ofList (digits (x.tenths / 10) ++ '.' :: digits (x.tenths % 10))

end TreeArchive.Decimal
