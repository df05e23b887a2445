import TreeArchive.Archive.Content

/-!
Contents as tokens: literal bytes, and copies of what came before. A copy takes the longest run of
at least four bytes that stands among the last places where the same four bytes began.
-/
namespace TreeArchive.Deflate

inductive Token where
  | literal (b : UInt8)
  | copy (length distance : Nat)
deriving DecidableEq, Repr, Inhabited

/-- The number of bytes that a token stands for. -/
def Token.size : Token → Nat
  | .literal _ => 1
  | .copy length _ => length

/-- A token several times. -/
structure TokenRun where
  token : Token
  count : Nat
deriving DecidableEq, Repr, Inhabited

def TokenRun.size (r : TokenRun) : Nat :=
  r.token.size * r.count

def literals : Array TokenRun :=
  (Array.range 256).map fun b => ⟨.literal b.toUInt8, 1⟩

def literal (b : UInt8) : TokenRun :=
  literals.getD b.toNat ⟨.literal b, 1⟩

def shortestCopy : Nat := 4

def longestCopy : Nat := 258

def farthestCopy : Nat := 32768 - 262

/-- A hash of the four bytes from a position on. -/
def slot? (data : ByteArray) (i : Nat) : Option Nat :=
  if h : i + 3 < data.size then
    let low := data[i].toUInt32 ||| (data[i + 1].toUInt32 <<< 8)
    let high := (data[i + 2].toUInt32 <<< 16) ||| (data[i + 3].toUInt32 <<< 24)
    some (((low ||| high) * 2654435761) >>> 16).toNat
  else none

/-- Where each hash was met: `latest` has the last position for a hash and `earlier` for each
position the one before it with the same hash, both plus one. -/
structure Positions where
  latest : Array Nat
  earlier : Array Nat

namespace Positions

def empty : Positions := ⟨Array.replicate 65536 0, #[]⟩

/-- Adds the next position. -/
def add (s : Positions) (data : ByteArray) : Positions :=
  let i := s.earlier.size
  match slot? data i with
  | some key =>
    let before := s.latest.getD key 0
    ⟨s.latest.setIfInBounds key (i + 1), s.earlier.push before⟩
  | none => ⟨s.latest, s.earlier.push 0⟩

/-- Passes over the next position. -/
def pass (s : Positions) : Positions :=
  ⟨s.latest, s.earlier.push 0⟩

end Positions

/-- The length of the common run at two positions, from `n` equal bytes on. -/
def commonLength (data : ByteArray) (i j limit n : Nat) : Nat :=
  if h : n < limit ∧ i + n < data.size ∧ j + n < data.size then
    if data[i + n] = data[j + n] then commonLength data i j limit (n + 1) else n
  else n
termination_by limit - n

/-- A copy of this length ends the search for a longer one. -/
def niceLength : Nat := 128

def searchDepth : Nat := 128

/-- The longest common run of position `i` with `n` earlier ones, from `place` (plus one) back; of
equal ones the nearest. The first position of all is never taken. -/
def search (s : Positions) (data : ByteArray) (i : Nat) : Nat → Nat → Nat × Nat → Nat × Nat
  | 0, _, best => best
  | n + 1, place, best =>
    if place < 2 ∨ i + 1 - place > farthestCopy then best
    else
      let length := commonLength data (place - 1) i longestCopy 0
      let best := if best.1 < length then (length, i + 1 - place) else best
      if niceLength ≤ best.1 then best else search s data i n (s.earlier.getD (place - 1) 0) best

/-- Tokens from the position on that `s` has not met yet. -/
def tokensFrom (data : ByteArray) : Nat → Positions → Array TokenRun → Array TokenRun
  | 0, _, found => found
  | fuel + 1, s, found =>
    let i := s.earlier.size
    if h : i < data.size then
      let s := s.add data
      let (length, distance) := search s data i searchDepth (s.earlier.getD i 0) (0, 0)
      if length < shortestCopy then tokensFrom data fuel s (found.push (literal data[i]))
      else
        let rest := length - 1
        let s :=
          -- the inside of a very long copy is not looked up again
          if length ≤ 256 then rest.repeat (Positions.add · data) s
          else ((rest - 1).repeat Positions.pass s).add data
        tokensFrom data fuel s (found.push ⟨.copy length distance, 1⟩)
    else found

def tokensOf (data : ByteArray) : Array TokenRun :=
  tokensFrom data data.size .empty #[]

/-- A block once, and what repeats it as copies over its own length, where that is near enough. -/
def tokensOfRun (r : ByteRun) : Array TokenRun :=
  let once := tokensOf r.block
  let size := r.block.size
  if size = 0 ∨ r.count = 0 then #[]
  else if size > farthestCopy then r.count.repeat (· ++ once) #[]
  else
    -- the longest copies, and a tail that never leaves too little for a copy of its own
    let rest := size * (r.count - 1)
    let copies := if rest % longestCopy < 3 then rest / longestCopy - 1 else rest / longestCopy
    let tail := rest - longestCopy * copies
    let once := if copies = 0 then once else once.push ⟨.copy longestCopy size, copies⟩
    if tail = 0 then once
    else if tail < 3 then
      once ++ (Array.range tail).map fun i => literal (r.block[i % size]?.getD 0)
    else if tail ≤ longestCopy then once.push ⟨.copy tail size, 1⟩
    else (once.push ⟨.copy (tail - 3) size, 1⟩).push ⟨.copy 3 size, 1⟩

/-- Contents up to this size are searched as a whole, longer ones run by run. -/
def wholeSize : Nat := 1048576

def tokens (c : Content) : Array TokenRun :=
  if c.size ≤ wholeSize then tokensOf c.bytes
  else c.runs.foldl (fun all r => all ++ tokensOfRun r) #[]

end TreeArchive.Deflate
