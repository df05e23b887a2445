import TreeArchive.FileSystem.Basic

/-! File systems written out in full: whether a tree is well formed can be computed. -/
namespace TreeArchive

def Name.ofString (text : String) : Name :=
  (Path.ofString text).bytes

namespace Node

mutual

def isWellFormed : Node → Bool
  | .directory _ entries =>
    decide (entries.map Prod.fst).Nodup && (entries.map Prod.fst).all isLegalName &&
      isWellFormedIn entries
  | _ => true

def isWellFormedIn : List (Name × Node) → Bool
  | [] => true
  | (_, node) :: rest => isWellFormed node && isWellFormedIn rest

end

mutual

theorem wellFormed_of_isWellFormed {node : Node} (h : node.isWellFormed = true) :
    node.WellFormed := by
  cases node with
  | directory mode entries =>
    rw [isWellFormed, Bool.and_eq_true, Bool.and_eq_true, decide_eq_true_eq, List.all_eq_true] at h
    exact .directory h.1.1 h.1.2 (wellFormed_of_isWellFormedIn h.2)
  | file data => exact .file data
  | link target => exact .link target
  | pipe => exact .pipe

theorem wellFormed_of_isWellFormedIn {entries : List (Name × Node)}
    (h : isWellFormedIn entries = true) (name : Name) (node : Node)
    (hmem : (name, node) ∈ entries) : node.WellFormed := by
  match entries with
  | (k, first) :: rest =>
    rw [isWellFormedIn, Bool.and_eq_true] at h
    rcases List.mem_cons.1 hmem with heq | hrest
    · cases heq
      exact wellFormed_of_isWellFormed h.1
    · exact wellFormed_of_isWellFormedIn h.2 name node hrest

end

/-- A file that everyone may read and its owner may write. -/
def ofBytes (id : Nat) (bytes : List UInt8) : Node :=
  .file ⟨id, 0o644, .ofBytes ⟨⟨bytes⟩⟩, none⟩

end Node

/-- The file system with some entries in its root directory, where it is worked. -/
def FileSystem.ofEntries (nextId : Nat) (entries : List (Name × Node))
    (h : (Node.directory 0o755 entries).isWellFormed = true) : FileSystem where
  root := .directory 0o755 entries
  nextId := nextId
  workingDirectory := []
  rooted := rfl
  wellFormed := Node.wellFormed_of_isWellFormed h

end TreeArchive
