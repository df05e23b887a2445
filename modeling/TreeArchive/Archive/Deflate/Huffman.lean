import TreeArchive.Archive.Deflate.Bits

/-!
Code lengths from frequencies, with a limit, and the canonical code of given lengths. The two rarest
trees are merged again and again, of equally rare ones the lower first; where a symbol ends up too
deep, lengths are moved until all fit and then go to the symbols in the order of the merges.
-/
namespace TreeArchive.Deflate

inductive Huffman where
  | leaf (symbol : Nat)
  | node (left right : Huffman)
deriving Inhabited

namespace Huffman

/-- The symbols with their depths. -/
def depths (depth : Nat) : Huffman → List (Nat × Nat)
  | .leaf symbol => [(symbol, depth)]
  | .node left right => left.depths (depth + 1) ++ right.depths (depth + 1)

/-- The number of nodes, leaves or not, below a depth. -/
def countDeeper (limit depth : Nat) : Huffman → Nat
  | .leaf _ => if limit < depth then 1 else 0
  | .node left right =>
    (if limit < depth then 1 else 0) + left.countDeeper limit (depth + 1) +
      right.countDeeper limit (depth + 1)

/-- A tree with its weight and height. -/
structure Weighted where
  weight : Nat
  height : Nat
  tree : Huffman
deriving Inhabited

def Weighted.isBefore (a b : Weighted) : Bool :=
  a.weight < b.weight || a.weight == b.weight && a.height ≤ b.height

def Weighted.merge (a b : Weighted) : Weighted :=
  ⟨a.weight + b.weight, max a.height b.height + 1, .node a.tree b.tree⟩

/-- Puts an item at a place of a heap or further down, so that no item is before its parent. -/
def sink (heap : Array Weighted) (item : Weighted) (place : Nat) : Array Weighted :=
  let left := 2 * place + 1
  if h : left < heap.size then
    let right := heap.getD (left + 1) heap[left]
    let next := if left + 1 < heap.size ∧ right.isBefore heap[left] then left + 1 else left
    let child := if next = left then heap[left] else right
    if item.isBefore child then heap.setIfInBounds place item
    else sink (heap.setIfInBounds place child) item next
  else heap.setIfInBounds place item
termination_by heap.size - place
decreasing_by
  simp only [Array.size_setIfInBounds]
  split <;> omega

def heapOf (items : Array Weighted) : Array Weighted :=
  (List.range (items.size / 2)).reverse.foldl
    (fun heap place => sink heap (heap.getD place default) place) items

/-- Merges until one tree is left; `met` are the items taken so far, the latest first. -/
def mergeAll : Nat → Array Weighted → List Weighted → Huffman × List Weighted
  | 0, heap, met => ((heap.getD 0 default).tree, met)
  | n + 1, heap, met =>
    let first := heap.getD 0 default
    let heap := sink heap.pop (heap.getD (heap.size - 1) default) 0
    let second := heap.getD 0 default
    mergeAll n (sink heap (first.merge second) 0) (second :: first :: met)

/-- Symbols that get a code although they do not occur: a code has at least two words. -/
def fillers (used : List Nat) : List Nat :=
  match used with
  | [] => [0, 1]
  | [only] => [if only < 2 then only + 1 else 0]
  | _ => []

/-- Lets a length shorter than `limit` grow, so that one of length `limit` finds room beside it. -/
def moveLength (limit : Nat) (counts : List Nat) : List Nat :=
  match ((List.range limit).reverse.find? fun n => 0 < counts.getD n 0) with
  | none => counts
  | some n =>
    let counts := counts.set n (counts.getD n 0 - 1)
    let counts := counts.set (n + 1) (counts.getD (n + 1) 0 + 2)
    counts.set limit (counts.getD limit 0 - 1)

/-- The longest lengths go to the symbols merged first. -/
def shareOut (limit : Nat) (counts : List Nat) (symbols : List Nat) : List (Nat × Nat) :=
  let lengths := (List.range (limit + 1)).flatMap fun n => List.replicate (counts.getD n 0) n
  symbols.zip lengths.reverse

/-- The length of each symbol's code word, zero for a symbol without one. -/
def lengths (limit : Nat) (frequencies : Array Nat) : Array Nat :=
  let used := (List.range frequencies.size).filter fun symbol => 0 < frequencies.getD symbol 0
  let leaf (symbol : Nat) : Weighted := ⟨max 1 (frequencies.getD symbol 0), 0, .leaf symbol⟩
  let items := ((used ++ fillers used).map leaf).toArray
  let (tree, met) := mergeAll (items.size - 1) (heapOf items) []
  let depths := tree.depths 0
  let deeper := tree.countDeeper limit 0
  let assigned :=
    if deeper = 0 then depths
    else
      let count (n : Nat) : Nat := depths.countP fun d => min d.2 limit == n
      let capped := (List.range (limit + 1)).map count
      -- nodes below the limit come in pairs, and one move finds room for a pair
      let counts := ((deeper + 1) / 2).repeat (moveLength limit) capped
      let symbols := met.reverse.filterMap fun item =>
        match item.tree with
        | .leaf symbol => some symbol
        | .node .. => none
      shareOut limit counts symbols
  assigned.foldl (fun all (symbol, length) => all.setIfInBounds symbol length)
    (Array.replicate frequencies.size 0)

end Huffman

/-- The first code word of each length up to the limit. -/
def firstWords (limit : Nat) (lengths : Array Nat) : List Nat :=
  ((List.range limit).foldl
    (fun (words, word) n =>
      let word := (word + (if n = 0 then 0 else lengths.toList.count n)) * 2
      (words ++ [word], word))
    ([0], 0)).1

/-- The canonical code: words of one length follow one another in the order of their symbols. -/
def canonical (limit : Nat) (lengths : Array Nat) : Array Code :=
  (lengths.foldl
    (fun ((codes, next) : Array Code × List Nat) length =>
      let word := next.getD length 0
      (codes.push (.ofWord word length), next.set length (word + 1)))
    (#[], firstWords limit lengths)).1

end TreeArchive.Deflate
