import TreeArchive.Text.CaseTable

/-!
Lower case of a whole text by the full mappings of the Unicode standard. Only the capital sigma
looks at its neighbours: it becomes a final sigma when a cased letter stands before it and none
after it.
-/
namespace TreeArchive.Text

def CaseRun.covers (r : CaseRun) (n : Nat) : Bool :=
  r.first ≤ n && n ≤ r.last && (n - r.first) % r.step == 0

def lowerCode (n : Nat) : Nat :=
  match lowerRuns.find? (·.covers n) with
  | some r => (n + r.shift).toNat
  | none => n

def inRanges (ranges : List (Nat × Nat)) (c : Char) : Bool :=
  ranges.any fun (low, high) => low ≤ c.toNat && c.toNat ≤ high

def isCased (c : Char) : Bool :=
  inRanges casedRanges c

def isSkipped (c : Char) : Bool :=
  inRanges skippedRanges c

/-- The first character that case rules do not skip is a cased letter. -/
def facesCased (text : List Char) : Bool :=
  ((text.dropWhile isSkipped).head?.map isCased).getD false

def capitalSigma : Char := '\u03A3'

/-- The lower case of one character between the texts `before`, nearest first, and `after`. -/
def lowerChar (before : List Char) (c : Char) (after : List Char) : List Char :=
  if c = capitalSigma then
    if facesCased before && !facesCased after then ['\u03C2'] else ['\u03C3']
  else if c = '\u0130' then ['i', '\u0307']
  else if c.toNat < 0x80 then [c.toLower]
  else [Char.ofNat (lowerCode c.toNat)]

def lowerFrom (before : List Char) : List Char → List Char
  | [] => []
  | c :: after => lowerChar before c after ++ lowerFrom (c :: before) after

def lowercase (text : List Char) : List Char :=
  lowerFrom [] text

end TreeArchive.Text
