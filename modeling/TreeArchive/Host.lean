import TreeArchive.Pack

/-!
The host's files as a file system value and back. The host tells neither permission bits nor where a
dangling link points: files count as 0644, those that cannot be read as 0000, and such a link leads
to a path that nothing has.
-/
namespace TreeArchive.Host

/-- A picture of a part of the host. `listed` are the directories whose nodes are all in it. -/
structure Picture where
  fs : FileSystem
  listed : List Location

def nowhere : Path := .ofString "/missing"

def knows (fs : FileSystem) (p : Path) : Bool :=
  (fs.find p false).toOption.isSome

def added (fs : FileSystem) (next : Except IoError FileSystem) : FileSystem :=
  match next with
  | .ok fs => fs
  | .error _ => fs

/-- The host's node at a path, without what is below it. -/
def node? (p : Path) (mode : Nat) : IO (Option Node) := do
  let host := (← IO.currentDir) / p.display
  match ← host.symlinkMetadata.toBaseIO with
  | .error _ => return none
  | .ok data =>
    match data.type with
    | .dir => return some (.directory 0o755 [])
    | .symlink =>
      match ← (IO.FS.realPath host).toBaseIO with
      | .ok target => return some (.link (.ofString target.toString))
      | .error _ => return some (.link nowhere)
    | .other => return some .pipe
    | .file =>
      match ← (IO.FS.readBinFile host).toBaseIO with
      | .ok bytes => return some (.file ⟨0, mode, .ofBytes bytes, none⟩)
      | .error _ =>
        -- of a file that cannot be read only the size is known
        let unknown := Content.repeated ⟨#[0]⟩ data.byteSize.toNat
        return some (.file ⟨0, 0, unknown, none⟩)

def names (p : Path) : IO (List Name) := do
  let host := (← IO.currentDir) / p.display
  match ← host.readDir.toBaseIO with
  | .ok entries => return entries.toList.map fun e => Text.Utf8.encode e.fileName.toList
  | .error _ => return []

/-- The paths of a path's directories, from the outermost in, and the path itself. -/
def stages (p : Path) : List Path :=
  let names := p.segments.filter (!·.isEmpty)
  (List.range names.length).map fun n =>
    FileSystem.pathThrough p.isAbsolute (names.take (n + 1)).reverse

mutual

/-- Adds the node at an absolute path and what a link there leads to. With `whole`, everything below
is added too. -/
partial def capture (whole : Bool) (picture : Picture) (p : Path) : IO Picture := do
  let picture ← (stages p).dropLast.foldlM (captureNode false) picture
  captureNode whole picture p

partial def captureNode (whole : Bool) (picture : Picture) (p : Path) : IO Picture := do
  let picture ← if knows picture.fs p then pure picture else
    match ← node? p 0o644 with
    | none => pure picture
    | some (.file data) =>
      pure { picture with fs := added picture.fs (picture.fs.write p data.mode data.content) }
    | some node => pure { picture with fs := added picture.fs (picture.fs.addNode p node) }
  match picture.fs.find p false with
  | .ok (_, .link target) => if target = nowhere then pure picture else capture whole picture target
  | .ok (l, .directory ..) =>
    if whole && !picture.listed.contains l then
      (← names p).foldlM (fun picture name => captureNode true picture (p.child name))
        { picture with listed := l :: picture.listed }
    else pure picture
  | _ => pure picture

end

/-- Puts the current directory into an empty file system. -/
def start : IO Picture := do
  let here := Path.ofString (← IO.currentDir).toString
  let picture ← capture false ⟨.empty, []⟩ here
  match picture.fs.find here true with
  | .ok (l, _) => return { picture with fs := { picture.fs with workingDirectory := l } }
  | .error _ => return picture

/-- The part of the host that a run with these settings looks at. -/
def capturedFor (s : Settings) (picture : Picture) : IO Picture := do
  let picture ← capture true picture s.source
  let picture ← capture false picture s.root
  capture false picture s.output

/-- Makes the host's output what a run has made of it. -/
def publish (before after : FileSystem) (output : Path) : IO Unit := do
  let host := (← IO.currentDir) / output.display
  let write (data : FileData) : IO Unit := do
    if knows before output then IO.FS.removeFile host
    IO.FS.writeBinFile host data.content.bytes
  match after.find output false with
  -- the files that a run makes are those with new numbers
  | .ok (_, .file data) => if before.nextId ≤ data.id then write data
  | .ok _ => pure ()
  | .error _ => if knows before output then IO.FS.removeFile host

end TreeArchive.Host
