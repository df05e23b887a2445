import TreeArchive.FileSystem.Node

/-!
A file system: a well-formed tree below a root directory. Links are nodes of their own, and no node
has two locations.
-/
namespace TreeArchive

structure FileSystem where
  root : Node
  nextId : Nat
  /-- The current directory. -/
  workingDirectory : Location
  rooted : root.kind = .directory
  wellFormed : root.WellFormed

namespace FileSystem

/-- No nodes but the root. -/
def empty : FileSystem where
  root := .directory 0o755 []
  nextId := 0
  workingDirectory := []
  rooted := rfl
  wellFormed := Node.wellFormed_of_entries rfl

def get? (fs : FileSystem) (l : Location) : Option Node :=
  fs.root.get? l

def isDirectory (fs : FileSystem) (l : Location) : Bool :=
  (fs.get? l).any fun node => node.kind == .directory

/-- Adds a node without entries at a free location in a directory. -/
def insert? (fs : FileSystem) (l : Location) (node : Node) : Option FileSystem :=
  if h : l ≠ [] ∧ l.all isLegalName = true ∧ node.entries.isEmpty = true ∧
      (fs.get? l).isNone = true ∧ fs.isDirectory l.dropLast = true then
    some { fs with
      root := fs.root.alter (fun old => some (old.getD node)) l
      rooted := by rw [Node.kind_alter, fs.rooted]
      wellFormed := by
        refine fs.wellFormed.alter ?_ (.inr h.2.1)
        intro old new hold hres
        cases hres
        cases old with
        | none => exact Node.wellFormed_of_entries (List.isEmpty_iff.1 h.2.2.1)
        | some n => exact hold n rfl }
  else none

/-- Takes away a location and everything below it. -/
def erase (fs : FileSystem) (l : Location) : FileSystem :=
  { fs with
    root := fs.root.alter (fun _ => none) l
    rooted := by rw [Node.kind_alter, fs.rooted]
    wellFormed := fs.wellFormed.alter (by simp) (.inl rfl) }

end FileSystem

/-- Changes what a file holds; other nodes stay as they are. -/
def Node.mapFile (change : FileData → FileData) : Node → Node
  | .file data => .file (change data)
  | node => node

theorem Node.WellFormed.mapFile {node : Node} (h : node.WellFormed)
    (change : FileData → FileData) : (node.mapFile change).WellFormed := by
  cases node with
  | file data => exact .file _
  | directory mode entries => exact h
  | link target => exact h
  | pipe => exact h

/-- Changes the file at one location and nothing else. -/
def FileSystem.update (fs : FileSystem) (l : Location) (change : FileData → FileData) :
    FileSystem :=
  { fs with
    root := fs.root.alter (Option.map (Node.mapFile change)) l
    rooted := by rw [Node.kind_alter, fs.rooted]
    wellFormed := by
      refine fs.wellFormed.alter ?_ (.inl rfl)
      intro old new hold hres
      obtain ⟨n, rfl, rfl⟩ := Option.map_eq_some_iff.1 hres
      exact (hold n rfl).mapFile change }

end TreeArchive
