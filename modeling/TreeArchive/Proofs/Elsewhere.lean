import TreeArchive.Proofs.Bare
import TreeArchive.Proofs.Extended

/-!
A change at one location, seen from every other: whatever does not stand at the location or below it
stays as it is, but for the names that directories hold.
-/
namespace TreeArchive

namespace Node

/-- A node without what it holds in entries. -/
def shell : Node → Node
  | .directory mode _ => .directory mode []
  | node => node

@[simp] theorem kind_shell (node : Node) : node.shell.kind = node.kind := by
  cases node <;> rfl

theorem shell_alter (change : Option Node → Option Node) (l : Location) (node : Node) :
    (node.alter change l).shell = node.shell := by
  fun_cases alter change l node <;> rfl

/-- Nothing but a directory has more to it than shows. -/
theorem eq_of_shell {node node' : Node} (h : node'.shell = node.shell)
    (hkind : node.kind ≠ .directory) : node' = node := by
  have hself (node : Node) (hkind : node.kind ≠ .directory) : node.shell = node := by
    cases node with
    | directory mode entries => exact absurd rfl hkind
    | file data => rfl
    | link target => rfl
    | pipe => rfl
  have hsame : node'.kind = node.kind := by rw [← kind_shell, h, kind_shell]
  calc
    node' = node'.shell := (hself node' (by rwa [hsame])).symm
    _ = node.shell := h
    _ = node := hself node hkind

theorem get?_append (front back : Location) (node : Node) :
    node.get? (front ++ back) = (node.get? front).bind (get? back) := by
  induction front generalizing node with
  | nil => rfl
  | cons name rest ih =>
    rw [List.cons_append, get?, get?, Option.bind_assoc]
    exact congrArg _ (funext ih)

/-- A change at a location is not seen at any other, unless that is below it. -/
theorem shell_get?_alter (change : Option Node → Option Node) {l other : Location}
    (h : ¬l <+: other) (node : Node) :
    ((node.alter change l).get? other).map shell = (node.get? other).map shell := by
  induction other generalizing l node with
  | nil => exact congrArg some (shell_alter change l node)
  | cons k rest ih =>
    cases node with
    | file data => simp [alter]
    | link target => simp [alter]
    | pipe => simp [alter]
    | directory mode entries =>
      -- the entry under `k` is another one than the change is about, or the change is inside it
      rcases l with _ | ⟨name, _ | ⟨next, l⟩⟩
      · exact absurd (List.nil_prefix) h
      · have hk : k ≠ name := by
          rintro rfl
          exact h (List.cons_prefix_cons.2 ⟨rfl, List.nil_prefix⟩)
        simp only [alter, get?, child?, Node.entries, lookup_alterEntry_of_ne change hk]
      · by_cases hk : k = name
        · subst hk
          have hrest : ¬next :: l <+: rest := fun hinit =>
            h (List.cons_prefix_cons.2 ⟨rfl, hinit⟩)
          have hself := lookup_alterEntry_map (alter change (next :: l)) k entries
          rw [alter, get?, get?, child?, child?]
          · simp only [Node.entries, hself]
            cases entries.lookup k with
            | none => rfl
            | some child => exact ih hrest child
          · simp
        · rw [alter, get?, get?, child?, child?]
          · simp only [Node.entries, lookup_alterEntry_of_ne _ hk]
          · simp

theorem lookup_alterEntry_erased (name : Name) (entries : List (Name × Node)) :
    (alterEntry (fun _ => none) name entries).lookup name = none := by
  unfold alterEntry
  split
  · rename_i hlookup
    simpa using hlookup
  · rename_i hlookup
    -- every entry of the name is dropped, not only the one that a look-up finds
    clear hlookup
    induction entries with
    | nil => rfl
    | cons e rest ih =>
      obtain ⟨k, node⟩ := e
      by_cases hk : k = name
      · rw [List.filterMap_cons_none (by simp [hk])]
        exact ih
      · have hne : (name == k) = false := beq_eq_false_iff_ne.2 fun h => hk h.symm
        rw [List.filterMap_cons_some (b := (k, node)) (by simp [hk]), List.lookup_cons, hne]
        exact ih

theorem get?_alter_erased {l : Location} (hl : l ≠ []) (node : Node) :
    (node.alter (fun _ => none) l).get? l = none := by
  induction l generalizing node with
  | nil => exact absurd rfl hl
  | cons name rest ih =>
    cases node with
    | file data => simp [alter, get?, child?, entries]
    | link target => simp [alter, get?, child?, entries]
    | pipe => simp [alter, get?, child?, entries]
    | directory mode entries =>
      cases rest with
      | nil => simp [alter, get?, child?, Node.entries, lookup_alterEntry_erased]
      | cons next rest =>
        -- the directory on the way stays, and the change goes on inside it
        have hself := lookup_alterEntry_map (alter (fun _ => none) (next :: rest)) name entries
        rw [alter, get?, child?]
        · simp only [Node.entries, hself]
          cases entries.lookup name with
          | none => rfl
          | some child => exact ih (by simp) child
        · simp

end Node

namespace FileSystem

/-- What does not stand at a location or below it is the same in two file systems, but for the names
that directories hold. -/
structure SameElsewhere (fs fs' : FileSystem) (l : Location) : Prop where
  workingDirectory : fs'.workingDirectory = fs.workingDirectory
  shell : ∀ other, ¬l <+: other →
    (fs'.get? other).map Node.shell = (fs.get? other).map Node.shell

variable {fs fs' fs'' : FileSystem} {l : Location}

theorem SameElsewhere.refl (fs : FileSystem) (l : Location) : fs.SameElsewhere fs l :=
  ⟨rfl, fun _ _ => rfl⟩

theorem SameElsewhere.trans (h : fs.SameElsewhere fs' l) (h' : fs'.SameElsewhere fs'' l) :
    fs.SameElsewhere fs'' l :=
  ⟨h'.workingDirectory.trans h.workingDirectory,
    fun other hother => (h'.shell other hother).trans (h.shell other hother)⟩

theorem sameElsewhere_erase (fs : FileSystem) (l : Location) : fs.SameElsewhere (fs.erase l) l :=
  ⟨rfl, fun _ hother => Node.shell_get?_alter _ hother fs.root⟩

theorem sameElsewhere_update (fs : FileSystem) (l : Location) (change : FileData → FileData) :
    fs.SameElsewhere (fs.update l change) l :=
  ⟨rfl, fun _ hother => Node.shell_get?_alter _ hother fs.root⟩

theorem sameElsewhere_store (fs : FileSystem) (handle : Handle) (content : Content)
    (records : Option (List Archive.Record)) :
    fs.SameElsewhere (fs.store handle content records) handle.location :=
  sameElsewhere_update fs handle.location _

theorem sameElsewhere_insert? {node : Node} (h : fs.insert? l node = some fs') :
    fs.SameElsewhere fs' l := by
  unfold insert? at h
  split at h
  · cases h
    exact ⟨rfl, fun _ hother => Node.shell_get?_alter _ hother fs.root⟩
  · cases h

theorem sameElsewhere_createNew {p : Path} {handle : Handle}
    (h : fs.createNew p = .ok (fs', handle)) : fs.SameElsewhere fs' handle.location := by
  obtain ⟨directory, name, grown, -, -, hinsert, rfl⟩ := exists_insert?_of_createNew h
  have hsame := sameElsewhere_insert? hinsert
  -- what is left is the count of identities, which no look-up reads
  exact ⟨hsame.workingDirectory, hsame.shell⟩

/-- Nothing stands below what is no directory. -/
theorem eq_of_prefix_of_get? {other : Location} {node inner : Node}
    (hget : fs.get? l = some node) (hkind : node.kind ≠ .directory) (hinit : l <+: other)
    (hother : fs.get? other = some inner) : other = l := by
  obtain ⟨rest, rfl⟩ := hinit
  cases rest with
  | nil => exact List.append_nil l
  | cons name rest =>
    rw [get?] at hget hother
    rw [Node.get?_append, hget, Option.bind_some, Node.get?] at hother
    obtain ⟨child, hchild, -⟩ := Option.bind_eq_some_iff.1 hother
    obtain ⟨mode, entries, rfl⟩ := Node.exists_of_child? hchild
    exact absurd rfl hkind

/-- What is no directory stands elsewhere as it did. -/
theorem SameElsewhere.get?_eq {node : Node} (h : fs.SameElsewhere fs' l) {other : Location}
    (hother : ¬l <+: other) (hget : fs.get? other = some node) (hkind : node.kind ≠ .directory) :
    fs'.get? other = some node := by
  have hshell := h.shell other hother
  rw [hget] at hshell
  obtain ⟨node', hnode, hsame⟩ := Option.map_eq_some_iff.1 hshell
  rw [hnode, Node.eq_of_shell hsame hkind]

end FileSystem

end TreeArchive
