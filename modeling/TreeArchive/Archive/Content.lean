/-!
What a file holds: bytes, kept as runs of a repeated block so that long monotonous files stay small.
-/
namespace TreeArchive

structure ByteRun where
  block : ByteArray
  count : Nat
deriving Inhabited

instance : DecidableEq ByteRun := fun r s =>
  decidable_of_iff (r.block.data = s.block.data ∧ r.count = s.count) <| by
    obtain ⟨⟨a⟩, m⟩ := r
    obtain ⟨⟨b⟩, n⟩ := s
    simp

def ByteRun.size (r : ByteRun) : Nat :=
  r.block.size * r.count

structure Content where
  runs : List ByteRun
deriving DecidableEq, Inhabited

namespace Content

def empty : Content := ⟨[]⟩

def ofBytes (bytes : ByteArray) : Content :=
  if bytes.isEmpty then empty else ⟨[⟨bytes, 1⟩]⟩

def repeated (block : ByteArray) (count : Nat) : Content :=
  if block.isEmpty || count == 0 then empty else ⟨[⟨block, count⟩]⟩

def append (c d : Content) : Content :=
  ⟨c.runs ++ d.runs⟩

def size (c : Content) : Nat :=
  c.runs.foldr (fun r n => r.size + n) 0

def bytes (c : Content) : ByteArray :=
  c.runs.foldl (fun all r => r.count.repeat (· ++ r.block) all) .empty

/-- At most `n` bytes of a run from `start` on. -/
def sliceOfRun (r : ByteRun) (start n : Nat) : ByteArray :=
  let n := min n (r.size - start)
  if r.count = 1 then r.block.extract start (start + n)
  else n.fold (fun i _ out => out.push (r.block[(start + i) % r.block.size]?.getD 0)) .empty

/-- At most `n` bytes from `start` on. -/
def slice (c : Content) (start n : Nat) : ByteArray :=
  (c.runs.foldl
    (fun ((start, n, out) : Nat × Nat × ByteArray) r =>
      let part := sliceOfRun r start n
      (start - r.size, n - part.size, out ++ part))
    (start, n, .empty)).2.2

/-- The sizes of the pieces in which `size` bytes are read through a buffer. -/
def chunks (buffer size : Nat) : List Nat :=
  List.replicate (size / buffer) buffer ++ if size % buffer = 0 then [] else [size % buffer]

end Content

end TreeArchive
