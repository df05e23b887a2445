import TreeArchive.FileSystem.Basic

/-!
From a path to a node. Components are taken one after the other, links on the way are replaced by
their targets, at most forty of them, and a separator at the end asks for a directory. The host is
taken to let the program search every directory, whatever its mode.
-/
namespace TreeArchive

/-- The names to step through; a separator behind the last one counts as a step to `.`. -/
def Path.steps (p : Path) : List Name :=
  let names := p.segments.filter (!·.isEmpty)
  if p.bytes.getLast? == some Path.slash && !names.isEmpty then names ++ [Path.dotName] else names

/-- A node with the way to it: the names stepped through, each with the directory it was found in,
the last one first. -/
structure Place where
  node : Node
  trail : List (Name × Node)

namespace Place

def location (place : Place) : Location :=
  (place.trail.map Prod.fst).reverse

def child? (place : Place) (name : Name) : Option Place :=
  (place.node.child? name).map (⟨·, (name, place.node) :: place.trail⟩)

/-- The directory that holds a node; the root holds itself. -/
def parent (place : Place) : Place :=
  match place.trail with
  | [] => place
  | (_, directory) :: outer => ⟨directory, outer⟩

end Place

/-- Where a path leads: to a node, or to a free name in a directory. -/
inductive Spot where
  | occupied (place : Place)
  | vacant (directory : Place) (name : Name)

namespace FileSystem

def maxLinks : Nat := 40

def maxName : Nat := 255

def maxPath : Nat := 4096

def rootPlace (fs : FileSystem) : Place := ⟨fs.root, []⟩

/-- Steps from `here`, with `budget` links left to follow; the last step follows a link if `follow`
says so. -/
def walk (fs : FileSystem) (follow : Bool) (budget : Nat) (here : Place) (steps : List Name) :
    Except Errno Spot :=
  match steps with
  | [] => .ok (.occupied here)
  | step :: rest =>
    match here.node with
    | .directory .. =>
      if step = Path.dotName then fs.walk follow budget here rest
      else if step = Path.dotDotName then fs.walk follow budget here.parent rest
      else if step.length > maxName then .error .nameTooLong
      else
        match here.child? step with
        | none => if rest.isEmpty then .ok (.vacant here step) else .error .noEntry
        | some there =>
          match there.node with
          | .link target =>
            if rest.isEmpty && !follow then .ok (.occupied there)
            else
              -- the target is read from the directory that holds the link
              match budget with
              | 0 => .error .tooManyLinks
              | budget + 1 =>
                fs.walk follow budget (if target.isAbsolute then fs.rootPlace else here)
                  (target.steps ++ rest)
          | _ => fs.walk follow budget there rest
    | _ => .error .notDirectory
termination_by (budget, steps.length)

/-- Where a path starts: at the root or in the current directory. -/
def start (fs : FileSystem) (p : Path) : Except Errno Place :=
  let l := if p.isAbsolute then [] else fs.workingDirectory
  match l.foldlM Place.child? fs.rootPlace with
  | some place => .ok place
  | none => .error .noEntry

/-- What a system call objects to in a path before it looks at any node. -/
def checkPath (p : Path) : Except IoError Unit :=
  if p.bytes.contains 0 then .error .nulByte
  else if p.bytes.isEmpty then .error (.system .noEntry)
  else if p.bytes.length ≥ maxPath then .error (.system .nameTooLong)
  else .ok ()

/-- Takes a path's steps from where it starts. -/
def resolve (fs : FileSystem) (p : Path) (steps : List Name) (links : Bool) : Except IoError Spot :=
  match fs.start p >>= fun here => fs.walk links maxLinks here steps with
  | .ok spot => .ok spot
  | .error errno => .error (.system errno)

def locate (fs : FileSystem) (p : Path) (follow : Bool) : Except IoError Spot := do
  checkPath p
  fs.resolve p p.steps follow

/-- The node a path names, with its location. Directories on the way may have any mode. -/
def find (fs : FileSystem) (p : Path) (follow : Bool) : Except IoError (Location × Node) := do
  match ← fs.locate p follow with
  | .vacant .. => .error (.system .noEntry)
  | .occupied place => .ok (place.location, place.node)

end FileSystem

end TreeArchive
