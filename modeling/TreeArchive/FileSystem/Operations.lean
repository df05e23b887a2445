import TreeArchive.FileSystem.Resolve

/-!
System calls on the map: reading, listing, creating and removing nodes by path. A file is opened if
its mode lets its owner read it. Directories are taken to be open to the program, whatever their
modes: `find` goes through each of them, `list` reads it, `createNew` and `unlink` change its
entries.
-/
namespace TreeArchive.FileSystem

/-- A file opened for reading. A directory can be opened, but not read. -/
structure Opened where
  mode : Nat
  read : Except IoError Content

/-- Opens for reading. A file must let its owner read it, and a pipe without a writer cannot be
opened. -/
def openFile (fs : FileSystem) (p : Path) : Except IoError Opened := do
  let (_, node) ← fs.find p true
  match node with
  | .file data =>
    if data.isReadable then .ok ⟨data.mode, .ok data.content⟩
    else .error (.system .permissionDenied)
  | .directory mode _ => .ok ⟨mode, .error (.system .isDirectory)⟩
  | _ => .error (.system .noDevice)

/-- The names in a directory and the kinds of their nodes, in the order the host lists them. Any
directory may be listed. -/
def list (fs : FileSystem) (p : Path) : Except IoError (List (Name × Kind)) := do
  let (_, node) ← fs.find p true
  match node with
  | .directory _ entries => .ok (entries.map fun (name, node) => (name, node.kind))
  | _ => .error (.system .notDirectory)

def addFile (fs : FileSystem) (l : Location) (mode : Nat) (content : Content) :
    Except IoError FileSystem :=
  match fs.insert? l (.file ⟨fs.nextId, mode, content, none⟩) with
  | some fs => .ok { fs with nextId := fs.nextId + 1 }
  | none => .error (.system .noEntry)

/-- A file that this program holds open for writing. -/
structure Handle where
  location : Location
  id : Nat
deriving DecidableEq, Repr

/-- The last name of a path has a separator behind it. -/
def asksDirectory (p : Path) : Bool :=
  p.bytes.getLast? == some Path.slash &&
    ((p.segments.filter (!·.isEmpty)).getLast?.any fun name =>
      name != Path.dotName && name != Path.dotDotName)

/-- Creates a file where nothing is, not even a link, in a directory of any mode. -/
def createNew (fs : FileSystem) (p : Path) : Except IoError (FileSystem × Handle) := do
  if asksDirectory p then
    checkPath p
    -- the directory the name would stand in decides which objection comes first
    match ← fs.resolve p p.steps.dropLast.dropLast true with
    | .occupied ⟨.directory .., _⟩ => .error (.system .isDirectory)
    | .occupied _ => .error (.system .notDirectory)
    | .vacant .. => .error (.system .noEntry)
  else
    match ← fs.locate p false with
    | .occupied _ => .error (.system .fileExists)
    | .vacant directory name =>
      let l := directory.location ++ [name]
      let fs' ← fs.addFile l 0o644 .empty
      .ok (fs', ⟨l, fs.nextId⟩)

/-- Replaces what an open file holds, if the file is still in the tree. -/
def store (fs : FileSystem) (h : Handle) (content : Content)
    (records : Option (List Archive.Record)) : FileSystem :=
  fs.update h.location fun data =>
    if data.id = h.id then { data with content := content, records := records } else data

/-- Removes a name that is no directory, from a directory of any mode. -/
def unlink (fs : FileSystem) (p : Path) : Except IoError FileSystem := do
  let (l, node) ← fs.find p false
  match node with
  | .directory .. => .error (.system .isDirectory)
  | _ => .ok (fs.erase l)

/-- Adds a node of its own at a free path. -/
def addNode (fs : FileSystem) (p : Path) (node : Node) : Except IoError FileSystem := do
  match ← fs.locate p false with
  | .occupied _ => .error (.system .fileExists)
  | .vacant directory name =>
    match fs.insert? (directory.location ++ [name]) node with
    | some fs => .ok fs
    | none => .error (.system .noEntry)

/-- Writes a whole file, over the old one if there is one. -/
def write (fs : FileSystem) (p : Path) (mode : Nat) (content : Content) :
    Except IoError FileSystem := do
  match ← fs.locate p true with
  | .vacant directory name => fs.addFile (directory.location ++ [name]) mode content
  | .occupied place =>
    match place.node with
    | .file _ =>
      let change (data : FileData) : FileData :=
        { data with mode := mode, content := content, records := none }
      .ok (fs.update place.location change)
    | .directory .. => .error (.system .isDirectory)
    | _ => .error (.system .noDevice)

/-- The path through some names, the last one first. -/
def pathThrough (absolute : Bool) (names : List Name) : Path :=
  let text := Text.join Path.slash names.reverse
  ⟨if absolute then Path.slash :: text else text⟩

end TreeArchive.FileSystem
