import TreeArchive.Archive.Deflate.Huffman
import TreeArchive.Archive.Deflate.Token

/-!
Blocks of the deflate format. A block holds its bytes as they are, or its tokens in the fixed code,
or its tokens in a code of its own, which then stands before them.
-/
namespace TreeArchive.Deflate

/-- Least lengths of the length codes from 257 on, and the number of extra bits of each. -/
def lengthCodes : List (Nat × Nat) :=
  [(3, 0), (4, 0), (5, 0), (6, 0), (7, 0), (8, 0), (9, 0), (10, 0), (11, 1), (13, 1), (15, 1),
   (17, 1), (19, 2), (23, 2), (27, 2), (31, 2), (35, 3), (43, 3), (51, 3), (59, 3), (67, 4),
   (83, 4), (99, 4), (115, 4), (131, 5), (163, 5), (195, 5), (227, 5), (258, 0)]

/-- Least distances of the distance codes, and the number of extra bits of each. -/
def distanceCodes : List (Nat × Nat) :=
  [(1, 0), (2, 0), (3, 0), (4, 0), (5, 1), (7, 1), (9, 2), (13, 2), (17, 3), (25, 3), (33, 4),
   (49, 4), (65, 5), (97, 5), (129, 6), (193, 6), (257, 7), (385, 7), (513, 8), (769, 8),
   (1025, 9), (1537, 9), (2049, 10), (3073, 10), (4097, 11), (6145, 11), (8193, 12), (12289, 12),
   (16385, 13), (24577, 13)]

/-- A symbol and the extra bits behind its code word. -/
structure Letter where
  symbol : Nat
  extra : Code
deriving DecidableEq, Repr, Inhabited

/-- The letter of a value: its index in the table and how far it lies above the least one there. -/
def Letter.ofValue (codes : List (Nat × Nat)) (value : Nat) : Letter :=
  let index := (codes.takeWhile fun code => code.1 ≤ value).length - 1
  let (least, width) := codes.getD index (0, 0)
  ⟨index, ⟨value - least, width⟩⟩

def endOfBlock : Letter := ⟨256, .empty⟩

def Token.letter : Token → Letter
  | .literal b => ⟨b.toNat, .empty⟩
  | .copy length _ =>
    let letter := Letter.ofValue lengthCodes length
    ⟨257 + letter.symbol, letter.extra⟩

def Token.distance? : Token → Option Letter
  | .literal _ => none
  | .copy _ distance => some (.ofValue distanceCodes distance)

/-- The two alphabets of a block, with something for each of their symbols. -/
structure Alphabets (α : Type) where
  letters : Array α
  distances : Array α

/-- How often each symbol occurs. -/
def tally (runs : Array TokenRun) : Alphabets Nat :=
  let add (all : Array Nat) (symbol count : Nat) : Array Nat := all.modify symbol (· + count)
  runs.foldl
    (fun ⟨letters, distances⟩ r =>
      let letters := add letters r.token.letter.symbol r.count
      match r.token.distance? with
      | some d => ⟨letters, add distances d.symbol r.count⟩
      | none => ⟨letters, distances⟩)
    ⟨add (Array.replicate 286 0) endOfBlock.symbol 1, Array.replicate 30 0⟩

def maxLength : Nat := 15

def fixedLengths : Alphabets Nat where
  letters := Array.replicate 144 8 ++ Array.replicate 112 9 ++ Array.replicate 24 7 ++
    Array.replicate 8 8
  distances := Array.replicate 30 5

def ownLengths (t : Alphabets Nat) : Alphabets Nat :=
  ⟨Huffman.lengths maxLength t.letters, Huffman.lengths maxLength t.distances⟩

def codesOf (lengths : Alphabets Nat) : Alphabets Code :=
  ⟨canonical maxLength lengths.letters, canonical maxLength lengths.distances⟩

def fixedCodes : Alphabets Code := codesOf fixedLengths

/-- The bits of all occurrences of symbols, extra bits apart. -/
def wordBits (lengths frequencies : Array Nat) : Nat :=
  (lengths.zipWith (· * ·) frequencies).foldr (· + ·) 0

/-- The extra bits of all occurrences of the symbols from `first` on. -/
def extraBits (codes : List (Nat × Nat)) (first : Nat) (frequencies : Array Nat) : Nat :=
  (codes.zipWith (fun code count => code.2 * count) (frequencies.toList.drop first)).foldr (· + ·) 0

def dataBits (lengths t : Alphabets Nat) : Nat :=
  wordBits lengths.letters t.letters + extraBits lengthCodes 257 t.letters +
    wordBits lengths.distances t.distances + extraBits distanceCodes 0 t.distances

/-! ### The code before a block -/

/-- Neighbouring equal items and their number. -/
def grouped : List Nat → List (Nat × Nat)
  | [] => []
  | n :: rest =>
    match grouped rest with
    | (m, count) :: groups =>
      if n = m then (m, count + 1) :: groups else (n, 1) :: (m, count) :: groups
    | [] => [(n, 1)]

def plain (length count : Nat) : List Letter :=
  List.replicate count ⟨length, .empty⟩

/-- A group of symbols without a word, at most 138 at a time. -/
def zeroLetters (count : Nat) : List Letter :=
  if h : 138 < count then ⟨18, 127, 7⟩ :: zeroLetters (count - 138)
  else if 10 < count then [⟨18, count - 11, 7⟩]
  else if 2 < count then [⟨17, count - 3, 3⟩]
  else plain 0 count
termination_by count
decreasing_by omega

/-- Further words of the length before them, at most 6 at a time. -/
def repeatLetters (length count : Nat) : List Letter :=
  if h : 6 < count then ⟨16, 3, 2⟩ :: repeatLetters length (count - 6)
  else if 2 < count then [⟨16, count - 3, 2⟩]
  else plain length count
termination_by count
decreasing_by omega

def groupLetters : Nat × Nat → List Letter
  | (0, count) => zeroLetters count
  | (length, count) =>
    if count < 4 then plain length count
    else
      -- the first repetition takes one word less, so that the word itself and it are 7
      ⟨length, .empty⟩ :: ⟨16, min count 7 - 4, 2⟩ :: repeatLetters length (count - 7)

def trimmed (lengths : Array Nat) : List Nat :=
  (lengths.toList.reverse.dropWhile (· == 0)).reverse

/-- The order in which the lengths of the header's own code are given. -/
def headerOrder : List Nat :=
  [16, 17, 18, 0, 8, 7, 9, 6, 10, 5, 11, 4, 12, 3, 13, 2, 14, 1, 15]

/-- The code of a block as it is written. -/
structure Header where
  letterCount : Nat
  distanceCount : Nat
  /-- Lengths of the header's own code, in its order. -/
  lengths : List Nat
  codes : Array Code
  body : List Letter

namespace Header

def ofLengths (lengths : Alphabets Nat) : Header :=
  let letters := trimmed lengths.letters
  let distances := trimmed lengths.distances
  let body := (grouped letters ++ grouped distances).flatMap groupLetters
  let count (all : Array Nat) (letter : Letter) : Array Nat := all.modify letter.symbol (· + 1)
  let own := Huffman.lengths 7 (body.foldl count (Array.replicate 19 0))
  let ordered := headerOrder.map fun symbol => own.getD symbol 0
  let needed := (ordered.reverse.dropWhile (· == 0)).reverse
  let kept := needed ++ List.replicate (4 - needed.length) 0
  ⟨letters.length, distances.length, kept, canonical 7 own, body⟩

def code (h : Header) (letter : Letter) : Code :=
  (h.codes.getD letter.symbol .empty).append letter.extra

def bits (h : Header) : Nat :=
  14 + 3 * h.lengths.length + h.body.foldr (fun letter n => (h.code letter).width + n) 0

def put (h : Header) (w : Bits) : Bits :=
  let w := w.put ⟨h.letterCount - 257, 5⟩ |>.put ⟨h.distanceCount - 1, 5⟩
    |>.put ⟨h.lengths.length - 4, 4⟩
  let w := h.lengths.foldl (fun w length => w.put ⟨length, 3⟩) w
  h.body.foldl (fun w letter => w.put (h.code letter)) w

end Header

/-! ### Blocks -/

/-- Some tokens with the place of their bytes. -/
structure Block where
  runs : Array TokenRun
  start : Nat
  size : Nat
deriving Inhabited

namespace Block

def tokenCode (codes : Alphabets Code) (token : Token) : Code :=
  let letter := token.letter
  let code := (codes.letters.getD letter.symbol .empty).append letter.extra
  match token.distance? with
  | none => code
  | some d => (code.append (codes.distances.getD d.symbol .empty)).append d.extra

def putTokens (b : Block) (codes : Alphabets Code) (w : Bits) : Bits :=
  let w := b.runs.foldl (fun w r => w.putMany (tokenCode codes r.token) r.count) w
  w.put (codes.letters.getD endOfBlock.symbol .empty)

/-- One bit says whether the block is the last, two which kind it is. -/
def kindCode (last : Bool) (kind : Nat) : Code :=
  ⟨(if last then 1 else 0) + 2 * kind, 3⟩

def storedPart (last : Bool) (bytes : ByteArray) (w : Bits) : Bits :=
  let size := bytes.size
  let w := (w.put (kindCode last 0)).align.put ⟨size, 16⟩ |>.put ⟨65535 - size, 16⟩
  w.putBytes bytes

/-- The bytes as they are, at most 65535 at a time. -/
def putStored (last : Bool) (bytes : ByteArray) (w : Bits) : Bits :=
  let parts := (bytes.size + 65534) / 65535
  (List.range parts).foldl
    (fun w i =>
      storedPart (last && i + 1 == parts) (bytes.extract (i * 65535) ((i + 1) * 65535)) w)
    w

def putFixed (b : Block) (last : Bool) (w : Bits) : Bits :=
  b.putTokens fixedCodes (w.put (kindCode last 1))

/-- The shortest of the three kinds, in whole bytes; of equal ones first the bytes as they are, then
the fixed code. -/
def putShortest (c : Content) (b : Block) (last : Bool) (w : Bits) : Bits :=
  let t := tally b.runs
  let lengths := ownLengths t
  let header := Header.ofLengths lengths
  let inFixed := (dataBits fixedLengths t + 10) / 8
  let inOwn := (header.bits + dataBits lengths t + 10) / 8
  if b.size + 4 ≤ min inFixed inOwn then putStored last (c.slice b.start b.size) w
  else if inFixed ≤ inOwn then b.putFixed last w
  else b.putTokens (codesOf lengths) (header.put (w.put (kindCode last 2)))

end Block

end TreeArchive.Deflate
