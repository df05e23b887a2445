import TreeArchive.Decimal.Binary64
import TreeArchive.Path

/-! What a run reports of itself. -/
namespace TreeArchive

open Decimal

/-- A span of time. -/
structure Duration where
  nanoseconds : Nat
deriving DecidableEq, Repr, Inhabited

namespace Duration

def zero : Duration := ⟨0⟩

def seconds (d : Duration) : Nat :=
  d.nanoseconds / 1000000000

def milliseconds (d : Duration) : Nat :=
  d.nanoseconds / 1000000

/-- The nanoseconds behind the whole seconds. -/
def fraction (d : Duration) : Nat :=
  d.nanoseconds % 1000000000

end Duration

/-- The counters have no bound; below 2 ^ 64 they count as numbers of 64 bits do. -/
structure Report where
  output : Path
  filesAdded : Nat
  bytesRead : Nat
  archiveSize : Nat
  replacedExisting : Bool
  duration : Duration
  warnings : List String
deriving DecidableEq, Repr, Inhabited

namespace Report

def ofOutput (output : Path) (replacedExisting : Bool) : Report :=
  ⟨output, 0, 0, 0, replacedExisting, .zero, []⟩

/-- Bytes read for each byte of the archive; zero if either is none. -/
def compressionRatio (r : Report) : Binary64 :=
  if r.archiveSize = 0 ∨ r.bytesRead = 0 then .zero
  else .div (.ofNat r.bytesRead) (.ofNat r.archiveSize)

/-- The part of the bytes read that was saved, in percent; an archive that grew saved nothing. -/
def compressionPercentage (r : Report) : Binary64 :=
  if r.bytesRead = 0 then .zero
  else .mul (.div (.ofNat (r.bytesRead - r.archiveSize)) (.ofNat r.bytesRead)) (.ofNat 100)

end Report

end TreeArchive
