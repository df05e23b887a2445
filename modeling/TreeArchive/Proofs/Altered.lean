import TreeArchive.FileSystem.Operations

/-! What stands at a location that has been written to, or at which a node has been added. -/
namespace TreeArchive

namespace Node

theorem lookup_alterEntry_self {change : Option Node → Option Node}
    (hchange : ∀ node, change (some node) ≠ none) (name : Name) (entries : List (Name × Node)) :
    (alterEntry change name entries).lookup name = change (entries.lookup name) := by
  unfold alterEntry
  cases hlookup : entries.lookup name with
  | none =>
    cases hnew : change none with
    | none => simpa using hlookup
    | some node => simp
  | some node =>
    simp only
    -- a look-up takes the first entry of the name, and that is changed where it stands
    induction entries with
    | nil => simp at hlookup
    | cons e rest ih =>
      obtain ⟨k, inner⟩ := e
      rw [List.lookup_cons] at hlookup
      by_cases hk : k = name
      · subst hk
        obtain rfl : inner = node := by simpa using hlookup
        obtain ⟨new, hnew⟩ := Option.ne_none_iff_exists'.1 (hchange inner)
        simp [hnew]
      · have hne : (name == k) = false := beq_eq_false_iff_ne.2 fun h => hk h.symm
        rw [hne] at hlookup
        rw [List.filterMap_cons_some (b := (k, inner)) (by simp [hk]), List.lookup_cons, hne]
        exact ih hlookup

theorem lookup_alterEntry_map (change : Node → Node) (name : Name) (entries : List (Name × Node)) :
    (alterEntry (Option.map change) name entries).lookup name =
      (entries.lookup name).map change := by
  apply lookup_alterEntry_self
  simp

theorem exists_of_child? {node child : Node} {name : Name} (h : node.child? name = some child) :
    ∃ mode entries, node = .directory mode entries := by
  cases node with
  | directory mode entries => exact ⟨mode, entries, rfl⟩
  | file data => cases h
  | link target => cases h
  | pipe => cases h

/-- A change at a location in a directory is what stands there afterwards. -/
theorem get?_alter_self (change : Option Node → Option Node)
    (hchange : ∀ node, change (some node) ≠ none) {l : Location} (hl : l ≠ [])
    {node : Node}
    (hparent : ∃ mode entries, node.get? l.dropLast = some (.directory mode entries)) :
    (node.alter change l).get? l = change (node.get? l) := by
  induction l generalizing node with
  | nil => exact absurd rfl hl
  | cons name rest ih =>
    cases rest with
    | nil =>
      obtain ⟨mode, entries, hnode⟩ := hparent
      obtain rfl : node = .directory mode entries := by simpa [get?] using hnode
      have hself := lookup_alterEntry_self hchange name entries
      simpa [alter, get?, child?, Node.entries] using hself
    | cons next rest =>
      obtain ⟨mode, entries, hnode⟩ := hparent
      rw [List.dropLast_cons_cons, get?] at hnode
      obtain ⟨child, hchild, hinner⟩ := Option.bind_eq_some_iff.1 hnode
      obtain ⟨mode', entries', rfl⟩ := exists_of_child? hchild
      -- the directory on the way is there, so the change goes on inside it
      have hself := lookup_alterEntry_map (alter change (next :: rest)) name entries'
      have hlookup : entries'.lookup name = some child := hchild
      rw [hlookup] at hself
      have hih := ih (by simp) ⟨mode, entries, hinner⟩
      rw [alter, get?, get?, child?, child?]
      simp only [Node.entries, hself, hlookup, Option.map_some, Option.bind_some, hih]
      simp

theorem exists_parent_of_get? {l : Location} (hl : l ≠ []) {node inner : Node}
    (h : node.get? l = some inner) :
    ∃ mode entries, node.get? l.dropLast = some (.directory mode entries) := by
  rw [← List.dropLast_concat_getLast hl, get?_concat] at h
  obtain ⟨parent, hparent, hchild⟩ := Option.bind_eq_some_iff.1 h
  obtain ⟨mode, entries, rfl⟩ := exists_of_child? hchild
  exact ⟨mode, entries, hparent⟩

end Node

namespace FileSystem

variable {fs fs' : FileSystem} {l : Location}

theorem get?_update {node : Node} (h : fs.get? l = some node) (hl : l ≠ [])
    (change : FileData → FileData) : (fs.update l change).get? l = some (node.mapFile change) := by
  have hself := Node.get?_alter_self (Option.map (Node.mapFile change)) (by simp) hl
    (Node.exists_parent_of_get? hl h)
  rw [get?] at h
  rw [h] at hself
  exact hself

/-- A node is added at a location that is free, and stands there. -/
theorem insert?_eq_some {node : Node} (h : fs.insert? l node = some fs') :
    l ≠ [] ∧ fs.get? l = none ∧ fs'.get? l = some node := by
  unfold insert? at h
  split at h
  · rename_i hfree
    cases h
    have hparent : ∃ mode entries, fs.get? l.dropLast = some (.directory mode entries) := by
      obtain ⟨parent, hget, hkind⟩ := (Option.any_eq_true _ _).1 hfree.2.2.2.2
      cases parent with
      | directory mode entries => exact ⟨mode, entries, hget⟩
      | file data => cases hkind
      | link target => cases hkind
      | pipe => cases hkind
    have hnone : fs.get? l = none := Option.isNone_iff_eq_none.1 hfree.2.2.2.1
    have hself := Node.get?_alter_self (fun old => some (old.getD node)) (by simp) hfree.1 hparent
    refine ⟨hfree.1, hnone, ?_⟩
    rw [get?] at hnone
    rw [hnone] at hself
    exact hself
  · cases h

end FileSystem

end TreeArchive
