import TreeArchive.Archive.Content

/-!
The CRC-32 of archive members. Checksums of neighbouring pieces are combined by multiplying
polynomials, so a run of equal blocks costs a logarithm of its length.
-/
namespace TreeArchive

/-- The checksum of some bytes and their number. -/
structure Checksum where
  crc : UInt32
  size : Nat
deriving DecidableEq, Repr, Inhabited

namespace Checksum

def polynomial : UInt32 := 0xEDB88320

def shiftOne (c : UInt32) : UInt32 :=
  if c &&& 1 = 1 then (c >>> 1) ^^^ polynomial else c >>> 1

def shiftByte (c : UInt32) : UInt32 :=
  shiftOne (shiftOne (shiftOne (shiftOne (shiftOne (shiftOne (shiftOne (shiftOne c)))))))

def table : Array UInt32 :=
  (Array.range 256).map fun n => shiftByte n.toUInt32

def step (crc : UInt32) (b : UInt8) : UInt32 :=
  (crc >>> 8) ^^^ table.getD ((crc ^^^ b.toUInt32) &&& 0xFF).toNat 0

def ofBytes (bytes : ByteArray) : Checksum :=
  ⟨bytes.foldl step 0xFFFFFFFF ^^^ 0xFFFFFFFF, bytes.size⟩

def zero : Checksum := ⟨0, 0⟩

/-- The product of two polynomials modulo the checksum's, from the `n` top coefficients of the
first. -/
def multiplyFrom : Nat → UInt32 → UInt32 → UInt32 → UInt32
  | 0, _, _, product => product
  | n + 1, a, b, product =>
    multiplyFrom n (a <<< 1) (shiftOne b) (if a &&& 0x80000000 = 0 then product else product ^^^ b)

def multiply (a b : UInt32) : UInt32 :=
  multiplyFrom 32 a b 0

/-- A power of a polynomial by repeated squaring. -/
def power (a : UInt32) (n : Nat) : UInt32 :=
  if n = 0 then 0x80000000
  else
    let half := power (multiply a a) (n / 2)
    if n % 2 = 0 then half else multiply a half
termination_by n

def append (a b : Checksum) : Checksum :=
  ⟨multiply (power 0x00800000 b.size) a.crc ^^^ b.crc, a.size + b.size⟩

def replicate (a : Checksum) (n : Nat) : Checksum :=
  if n = 0 then zero
  else
    let half := replicate (a.append a) (n / 2)
    if n % 2 = 0 then half else a.append half
termination_by n

end Checksum

def Content.checksum (c : Content) : Checksum :=
  c.runs.foldl (fun all r => all.append ((Checksum.ofBytes r.block).replicate r.count)) .zero

end TreeArchive
