/-! Bit strings of the deflate format: fields go in with their lowest bit first. -/
namespace TreeArchive.Deflate

/-- The lowest `width` bits of a value. -/
structure Code where
  value : Nat
  width : Nat
deriving DecidableEq, Repr, Inhabited

namespace Code

def empty : Code := ⟨0, 0⟩

def append (a b : Code) : Code :=
  ⟨a.value + b.value <<< a.width, a.width + b.width⟩

def replicate (a : Code) (n : Nat) : Code :=
  n.repeat (append · a) empty

def reversed : Nat → Nat → Nat
  | 0, _ => 0
  | width + 1, value => (value % 2) <<< width + reversed width (value / 2)

/-- A code word, its highest bit first. -/
def ofWord (word width : Nat) : Code :=
  ⟨reversed width word, width⟩

end Code

/-- Bits written so far: whole bytes, and fewer than eight bits more. -/
structure Bits where
  bytes : ByteArray
  pending : UInt64
  width : Nat

namespace Bits

def empty : Bits := ⟨.empty, 0, 0⟩

def drain : Nat → Bits → Bits
  | 0, w => w
  | n + 1, w =>
    if w.width < 8 then w
    else drain n ⟨w.bytes.push w.pending.toUInt8, w.pending >>> 8, w.width - 8⟩

/-- The longest code that can be added at once. -/
def capacity : Nat := 48

def put (w : Bits) (code : Code) : Bits :=
  let pending := w.pending ||| (code.value.toUInt64 <<< w.width.toUInt64)
  drain 7 ⟨w.bytes, pending, w.width + code.width⟩

/-- The same code `count` times. -/
def putMany (w : Bits) (code : Code) (count : Nat) : Bits :=
  let n := capacity / code.width
  if count < 2 ∨ n < 2 then count.repeat (put · code) w
  else
    let w := (count / n).repeat (put · (code.replicate n)) w
    (count % n).repeat (put · code) w

/-- Fills the last byte with zero bits. -/
def align (w : Bits) : Bits :=
  if w.width = 0 then w else ⟨w.bytes.push w.pending.toUInt8, 0, 0⟩

def putBytes (w : Bits) (bytes : ByteArray) : Bits :=
  { w.align with bytes := w.align.bytes ++ bytes }

def finish (w : Bits) : ByteArray :=
  w.align.bytes

end Bits

end TreeArchive.Deflate
