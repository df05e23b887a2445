/-!
UTF-8 on lists of bytes. Reading follows the standard's table of well-formed sequences; each maximal
ill-formed part counts as one unit, which lossy reading shows as U+FFFD.
-/
namespace TreeArchive.Text.Utf8

def encodeChar (c : Char) : List UInt8 :=
  let n := c.toNat
  if n < 0x80 then [UInt8.ofNat n]
  else if n < 0x800 then [UInt8.ofNat (0xC0 + n / 64), UInt8.ofNat (0x80 + n % 64)]
  else if n < 0x10000 then
    [UInt8.ofNat (0xE0 + n / 4096), UInt8.ofNat (0x80 + n / 64 % 64), UInt8.ofNat (0x80 + n % 64)]
  else
    [UInt8.ofNat (0xF0 + n / 262144), UInt8.ofNat (0x80 + n / 4096 % 64),
      UInt8.ofNat (0x80 + n / 64 % 64), UInt8.ofNat (0x80 + n % 64)]

def encode (text : List Char) : List UInt8 :=
  text.flatMap encodeChar

/-- Between characters, or inside one: `missing + 1` bytes are still owed, the next one in
`low..high`. -/
inductive State where
  | between
  | inside (missing low high value : Nat)

/-- What one byte completes between characters, and the state after it. -/
def first (b : UInt8) : List (Option Char) × State :=
  let n := b.toNat
  if n < 0x80 then ([some (Char.ofNat n)], .between)
  else if n < 0xC2 then ([none], .between)
  else if n < 0xE0 then ([], .inside 0 0x80 0xBF (n - 0xC0))
  else if n = 0xE0 then ([], .inside 1 0xA0 0xBF 0)
  else if n = 0xED then ([], .inside 1 0x80 0x9F 0xD)
  else if n < 0xF0 then ([], .inside 1 0x80 0xBF (n - 0xE0))
  else if n = 0xF0 then ([], .inside 2 0x90 0xBF 0)
  else if n < 0xF4 then ([], .inside 2 0x80 0xBF (n - 0xF0))
  else if n = 0xF4 then ([], .inside 2 0x80 0x8F 4)
  else ([none], .between)

def next : State → UInt8 → List (Option Char) × State
  | .between, b => first b
  | .inside missing low high value, b =>
    if low ≤ b.toNat ∧ b.toNat ≤ high then
      let value := value * 64 + b.toNat % 64
      match missing with
      | 0 => ([some (Char.ofNat value)], .between)
      | missing + 1 => ([], .inside missing 0x80 0xBF value)
    else
      let (units, state) := first b
      (none :: units, state)

/-- The characters of a byte sequence in order, `none` for each maximal ill-formed part. -/
def scan : State → List UInt8 → List (Option Char)
  | .between, [] => []
  | .inside .., [] => [none]
  | state, b :: rest =>
    let (units, state) := next state b
    units ++ scan state rest

def decode? (bytes : List UInt8) : Option (List Char) :=
  (scan .between bytes).mapM id

def lossy (bytes : List UInt8) : List Char :=
  (scan .between bytes).map fun unit => unit.getD '\uFFFD'

end TreeArchive.Text.Utf8
