import TreeArchive.Archive.Deflate.Block

/-!
Packing by the deflate format: tokens in blocks of limited length, each block in its shortest kind.
Quick packing makes one block of the fixed code.
-/
namespace TreeArchive.Deflate

/-- A block ends after so many tokens. -/
def blockTokens : Nat := 16383

/-- Blocks that are full and one that takes more tokens. -/
structure Cut where
  full : Array Block
  rest : Block
  count : Nat
deriving Inhabited

namespace Cut

def empty : Cut := ⟨#[], ⟨#[], 0, 0⟩, 0⟩

/-- Adds a run that the open block has room for. -/
def push (s : Cut) (r : TokenRun) : Cut :=
  if r.count = 0 then s
  else
    { s with
      rest := ⟨s.rest.runs.push r, s.rest.start, s.rest.size + r.size⟩
      count := s.count + r.count }

def close (s : Cut) : Cut :=
  ⟨s.full.push s.rest, ⟨#[], s.rest.start + s.rest.size, 0⟩, 0⟩

/-- Adds a run, over as many blocks as it takes. -/
def add : Nat → Cut → TokenRun → Cut
  | 0, s, _ => s
  | n + 1, s, r =>
    let room := blockTokens - s.count
    if r.count < room then s.push r
    else add n (s.push ⟨r.token, room⟩).close ⟨r.token, r.count - room⟩

def ofRuns (runs : Array TokenRun) : Cut :=
  runs.foldl (fun s r => add (r.count / blockTokens + 2) s r) empty

end Cut

/-- Contents from this size on are taken up before their end is known. -/
def lookahead : Nat := 262

/-- One block of the fixed code; an empty one ends what was begun before its end was known. -/
def packQuickly (c : Content) : ByteArray :=
  let b : Block := ⟨tokens c, 0, c.size⟩
  if c.size < lookahead then (b.putFixed true .empty).finish
  else (Block.putFixed default true (b.putFixed false .empty)).finish

def packBlocks (c : Content) : ByteArray :=
  let cut := Cut.ofRuns (tokens c)
  let w := cut.full.foldl (fun w b => b.putShortest c false w) .empty
  (cut.rest.putShortest c true w).finish

/-- The packed bytes at a level; only the first one is quick. -/
def pack (level : UInt8) (c : Content) : ByteArray :=
  if level = 1 then packQuickly c else packBlocks c

end TreeArchive.Deflate
