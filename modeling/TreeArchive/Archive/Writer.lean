import TreeArchive.Archive.Member
import TreeArchive.Failure

/-!
An archive being written. Members are added one after the other; closing the writer completes the
member that is being written and puts the directory behind the members, whether the run that wrote
them went well or not.
-/
namespace TreeArchive.Archive

structure Writer where
  level : UInt8
  records : List Record
  current : Option Member
  /-- The bytes of the complete members. -/
  front : Content
  front_eq : front = locals records

namespace Writer

def ofLevel (level : UInt8) : Writer where
  level := level
  records := []
  current := none
  front := .empty
  front_eq := rfl

/-- Levels that the packer knows: all but zero. -/
def knowsLevel (level : UInt8) : Bool := level != 0

/-- The member being written as a complete one. -/
def last (w : Writer) : List Record :=
  (w.current.map (Record.ofMember w.level)).toList

/-- The members with the one being written completed. -/
def completed (w : Writer) : List Record :=
  w.records ++ w.last

/-- Completes the member being written. -/
def complete (w : Writer) : Writer where
  level := w.level
  records := w.completed
  current := none
  front := w.front.append (locals w.last)
  front_eq := by rw [w.front_eq, completed, locals_append]

/-- Starts a member without content; its name must be new. -/
def start (w : Writer) (m : Member) : Except Failure Writer :=
  if !knowsLevel w.level then .error (.archive (.unsupported "Unsupported compression level"))
  else
    -- the member before this one is complete also where the name is refused
    let w := w.complete
    if w.records.any (·.member.name == m.name) then
      .error (.archive (.invalid s!"Duplicate filename: {m.name}"))
    else .ok { w with current := some m }

/-- The bytes that stand in the file while a member is being written. -/
def visible (w : Writer) : Content :=
  w.front.append (.ofBytes ((w.current.map openHeader).getD .empty))

/-- The pieces that fit behind `written` bytes of a member, and whether all of them do. -/
def fitting (limit : Nat) : Nat → List Nat → List Nat × Bool
  | _, [] => ([], true)
  | written, chunk :: chunks =>
    if written + chunk > limit then ([], false)
    else
      let (rest, complete) := fitting limit (written + chunk) chunks
      (chunk :: rest, complete)

/-- The pieces of `content` that the current member takes. One that outgrows its header is given up.
-/
def write (w : Writer) (buffer : Nat) (content : Content) : List Nat × Except Failure Writer :=
  match w.current with
  | none => ([], .error (.io (.custom "No file has been started")))
  | some m =>
    let chunks := Content.chunks buffer content.size
    if m.large then (chunks, .ok { w with current := some { m with content := content } })
    else
      match fitting plainLimit 0 chunks with
      | (taken, true) => (taken, .ok { w with current := some { m with content := content } })
      | (taken, false) => (taken, .error (.io (.custom "Large file option has not been set")))

/-- The writer without the member that is being written. -/
def abort (w : Writer) : Writer := { w with current := none }

end Writer

end TreeArchive.Archive
