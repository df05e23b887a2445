/-! Decimal digits of natural numbers, plain and in groups of three. -/
namespace TreeArchive.Decimal

def digits (n : Nat) : List Char :=
  Nat.toDigits 10 n

/-- A comma in front of each group of three counted from the end; `room` places are left in the
first. -/
def groupFrom (room : Nat) : List Char → List Char
  | [] => []
  | c :: rest =>
    match room with
    | 0 => ',' :: c :: groupFrom 2 rest
    | room + 1 => c :: groupFrom room rest

def grouped (n : Nat) : String :=
  String.ofList (groupFrom 3 (digits n).reverse).reverse

end TreeArchive.Decimal
