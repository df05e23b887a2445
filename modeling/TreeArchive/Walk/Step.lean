import TreeArchive.Settings

/-!
The lazy walk of a source directory. A walk is a stack of directory listings; one step takes one
listed node, follows it if it is a link and links are followed, drops it if it is excluded, opens it
if it is a directory, and yields it if it is a regular file. Every step sees the file system as it
is at that moment.
-/
namespace TreeArchive

/-- A regular file that the walk found. -/
structure Entry where
  path : Path
  relative : RelativePath
  size : Nat
deriving DecidableEq

/-- A listed node: its kind is the one the listing gave, or its target's if it is a followed link.
-/
structure Visit where
  path : Path
  kind : Kind
  followed : Bool
deriving DecidableEq, Repr

/-- An open directory with what is still to be taken from its listing. -/
structure Frame where
  directory : Path
  pending : List (Except (Path × IoError) Visit)

/-- What a walk goes by; it stays the same while the walk moves. -/
structure Rules where
  settings : Settings
  exclusions : Exclusions
  /-- Normal forms of paths that are never yielded. -/
  skipped : List Path

/-- What went wrong at a node; without a path it went wrong at none in particular. -/
structure Fault where
  path? : Option Path
  source : IoError
deriving DecidableEq, Repr

namespace Rules

def failure (r : Rules) (f : Fault) : Failure :=
  .walk (f.path?.getD r.settings.source) f.source

/-- Whether a node is visited at all. A path that has no relative form is, so that its failure is
reported. -/
def keeps (r : Rules) (p : Path) : Bool :=
  !r.skipped.any (· == p.normalize) &&
    match RelativePath.fromRoot p r.settings.root with
    | .ok relative => !r.exclusions.excludes relative
    | .error _ => true

def nameLe (a b : Name × Kind) : Bool :=
  decide (a.1 ≤ b.1)

/-- What is in a directory; where it cannot be listed, the failure is the listing's one item. -/
def listing (r : Rules) (fs : FileSystem) (directory : Path) :
    List (Except (Path × IoError) Visit) :=
  match fs.list directory with
  | .error e => [.error (directory, e)]
  | .ok entries =>
    let entries := if r.settings.sorted then entries.mergeSort nameLe else entries
    entries.map fun (name, kind) => .ok ⟨directory.child name, kind, false⟩

/-- The location of a directory that can be opened. -/
def openedAt (fs : FileSystem) (p : Path) : Except IoError Location := do
  let (l, _) ← fs.find p true
  .ok l

/-- Whether a followed directory is one of those that are open, the innermost first. -/
def checkLoop (fs : FileSystem) (child : Path) (here : Location) : List Path → Except Fault Unit
  | [] => .ok ()
  | directory :: outer =>
    match openedAt fs directory with
    | .error e => .error ⟨none, e⟩
    | .ok l =>
      -- two paths lead to the same directory if they lead to the same location
      if l = here then
        let text := s!"{child.display} points to an ancestor {directory.display}"
        .error ⟨some child, .custom s!"File system loop found: {text}"⟩
      else checkLoop fs child here outer

/-- A link seen as its target; a target that is an open directory is a loop. -/
def follow (fs : FileSystem) (opened : List Path) (v : Visit) : Except Fault Visit :=
  match fs.find v.path true with
  | .error e => .error ⟨some v.path, e⟩
  | .ok (l, node) =>
    if node.kind = .directory then do
      checkLoop fs v.path l opened
      .ok ⟨v.path, node.kind, true⟩
    else .ok ⟨v.path, node.kind, true⟩

/-- A listed node as the walk sees it, below the open directories. -/
def look (r : Rules) (fs : FileSystem) (opened : List Path) (v : Visit) : Except Fault Visit :=
  if r.settings.followLinks ∧ v.kind = .link then follow fs opened v else .ok v

/-- What taking up a node comes to: an item, a directory to go on with, or neither. -/
inductive Outcome where
  | item (i : Except Failure Entry)
  | directory (p : Path)
  | nothing

/-- What a node that is no directory yields: a regular file or a failure. -/
def leaf (r : Rules) (fs : FileSystem) (v : Visit) : Outcome :=
  -- a link that was not followed still stands for the file it leads to
  match fs.find v.path (v.followed || v.kind == .link) with
  | .error e => .item (.error (.walk v.path e))
  | .ok (_, .file data) =>
    .item ((RelativePath.fromRoot v.path r.settings.root).map fun relative =>
      ⟨v.path, relative, data.content.size⟩)
  | .ok _ => .nothing

/-- Takes up a listed node below the open directories. A link is followed before it is known to be
kept, so that one that cannot be followed is a failure in any case. -/
def visit (r : Rules) (fs : FileSystem) (opened : List Path) (v : Visit) : Outcome :=
  match r.look fs opened v with
  | .error f => .item (.error (r.failure f))
  | .ok v =>
    if !r.keeps v.path then .nothing
    else if v.kind = .directory then .directory v.path
    else r.leaf fs v

/-- Takes up the source: a directory, or a link to one. -/
def begin (r : Rules) (fs : FileSystem) : Outcome :=
  let source := r.settings.source
  match fs.find source false with
  | .error e => .item (.error (r.failure ⟨some source, e⟩))
  | .ok (_, node) =>
    match r.look fs [] ⟨source, node.kind, false⟩ with
    | .error f => .item (.error (r.failure f))
    | .ok v =>
      if v.kind = .directory then .directory source
      else if v.kind = .link then
        -- the source is followed also where other links are not
        match fs.find source true with
        | .error e => .item (.error (r.failure ⟨some source, e⟩))
        | .ok (_, .directory ..) => .directory source
        | .ok _ => .nothing
      else .nothing

end Rules

structure Walk where
  rules : Rules
  /-- The walk has not looked at its source yet. -/
  fresh : Bool
  stack : List Frame

namespace Walk

def ofSettings (s : Settings) : Except Failure Walk := do
  .ok ⟨⟨s, ← s.exclusions, []⟩, true, []⟩

def skip (w : Walk) (p : Path) : Walk :=
  { w with rules.skipped := w.rules.skipped ++ [p.normalize] }

/-- The open directories, the innermost first. -/
def opened (w : Walk) : List Path :=
  w.stack.map Frame.directory

/-- Opens a directory's listing. -/
def push (w : Walk) (fs : FileSystem) (directory : Path) : Walk :=
  { w with stack := ⟨directory, w.rules.listing fs directory⟩ :: w.stack }

inductive Step where
  | finished
  | moved (w : Walk)
  | yielded (item : Except Failure Entry) (w : Walk)

/-- Goes on with what a node has come to. -/
def after (w : Walk) (fs : FileSystem) : Rules.Outcome → Step
  | .item i => .yielded i w
  | .directory p => .moved (w.push fs p)
  | .nothing => .moved w

def step (w : Walk) (fs : FileSystem) : Step :=
  if w.fresh then { w with fresh := false }.after fs (w.rules.begin fs)
  else
    match w.stack with
    | [] => .finished
    | ⟨_, []⟩ :: outer => .moved { w with stack := outer }
    | ⟨directory, .error (p, e) :: pending⟩ :: outer =>
      .yielded (.error (w.rules.failure ⟨some p, e⟩))
        { w with stack := ⟨directory, pending⟩ :: outer }
    | ⟨directory, .ok v :: pending⟩ :: outer =>
      let w := { w with stack := ⟨directory, pending⟩ :: outer }
      w.after fs (w.rules.visit fs w.opened v)

end Walk

end TreeArchive
