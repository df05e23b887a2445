/-! Numbers of 64 bits, and their addition. A sum that does not fit ends the program. -/
namespace TreeArchive

/-- What ends the program where it stands. -/
inductive Panic where
  | additionOverflow
deriving DecidableEq, Repr

def Panic.message : Panic → String
  | .additionOverflow => "attempt to add with overflow"

namespace Checked

def add (a b : Nat) : Except Panic Nat :=
  if a + b < UInt64.size then .ok (a + b) else .error .additionOverflow

/-- Adds from the left. -/
def sum (counts : List Nat) : Except Panic Nat :=
  counts.foldlM add 0

variable {a b : Nat}

theorem add_of_lt (h : a + b < UInt64.size) : add a b = .ok (a + b) :=
  if_pos h

theorem add_of_le (h : UInt64.size ≤ a + b) : add a b = .error .additionOverflow :=
  if_neg (Nat.not_lt.2 h)

end Checked

end TreeArchive
