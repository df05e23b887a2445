import TreeArchive.Decimal.Fixed
import TreeArchive.Report

/-! Sizes and durations as people read them. -/
namespace TreeArchive.Console

open Decimal

/-- Units of 1024 with their names, the largest first. -/
abbrev Units := List (Nat × String)

def reportUnits : Units :=
  [(1073741824, "GB"), (1048576, "MB"), (1024, "KB")]

def progressUnits : Units :=
  (1099511627776, "TB") :: reportUnits

/-- A number of bytes in the largest unit that it fills, to one decimal place. -/
def sizeText (units : Units) (bytes : Nat) : String :=
  match units.find? fun unit => unit.1 ≤ bytes with
  | some (unit, name) => s!"{(Binary64.div (.ofNat bytes) (.ofNat unit)).fixed} {name}"
  | none => s!"{bytes} B"

/-- A whole number of units and what is left of the next, `places` digits wide, without zeros at the
end. -/
def unitText (whole rest places : Nat) (name : String) : String :=
  let digits := Decimal.digits rest
  let fraction := List.replicate (places - digits.length) '0' ++ digits
  let kept := (fraction.reverse.dropWhile (· == '0')).reverse
  let point := if kept.isEmpty then [] else '.' :: kept
  String.ofList (Decimal.digits whole ++ point) ++ name

/-- A duration in the largest of seconds, milliseconds, microseconds and nanoseconds that it fills.
-/
def durationText (d : Duration) : String :=
  let n := d.nanoseconds
  if 0 < d.seconds then unitText d.seconds d.fraction 9 "s"
  else if 1000000 ≤ n then unitText (n / 1000000) (n % 1000000) 6 "ms"
  else if 1000 ≤ n then unitText (n / 1000) (n % 1000) 3 "µs"
  else unitText n 0 0 "ns"

def padLeft (width : Nat) (text : String) : String :=
  String.ofList (List.replicate (width - text.length) ' ' ++ text.toList)

end TreeArchive.Console
