import TreeArchive.Proofs.Copied

/-!
File systems that are the same but for what one open file holds. Paths lead to the same places in
them, and every other file is opened alike.
-/
namespace TreeArchive

namespace Node

/-- Of two changes of what a name stands for, one after the other, is made one. -/
theorem alterEntry_map_map (first second : Node → Node) (name : Name)
    (entries : List (Name × Node)) :
    alterEntry (Option.map second) name (alterEntry (Option.map first) name entries) =
      alterEntry (Option.map (second ∘ first)) name entries := by
  have hlookup := lookup_alterEntry_map first name entries
  cases hentry : entries.lookup name with
  | none =>
    rw [hentry] at hlookup
    simp only [alterEntry, hentry, Option.map_none, Option.toList_none, List.nil_append]
  | some node =>
    rw [hentry, Option.map_some] at hlookup
    conv_lhs => rw [alterEntry, hlookup]
    simp only [alterEntry, hentry, List.filterMap_filterMap]
    apply List.filterMap_congr
    intro e _
    by_cases he : e.1 = name
    · simp [he]
    · simp [he]

theorem alter_map_map (first second : Node → Node) (l : Location) (node : Node) :
    (node.alter (Option.map first) l).alter (Option.map second) l =
      node.alter (Option.map (second ∘ first)) l := by
  induction l generalizing node with
  | nil => cases node <;> rfl
  | cons name rest ih =>
    cases node with
    | file data => simp [alter]
    | link target => simp [alter]
    | pipe => simp [alter]
    | directory mode entries =>
      cases rest with
      | nil => simp only [alter, alterEntry_map_map]
      | cons next rest =>
        have hinner : alter (Option.map second) (next :: rest) ∘
            alter (Option.map first) (next :: rest) =
              alter (Option.map (second ∘ first)) (next :: rest) := funext ih
        simp only [alter, alterEntry_map_map, hinner]

end Node

namespace FileSystem

variable {fs fs' : FileSystem} {handle : Handle} {p : Path} {l : Location} {content : Content}
  {records : Option (List Archive.Record)}

/-- What is stored over something leaves nothing of it. -/
theorem store_store (fs : FileSystem) (handle : Handle) (content content' : Content)
    (records records' : Option (List Archive.Record)) :
    (fs.store handle content records).store handle content' records' =
      fs.store handle content' records' := by
  have hchange : (Node.mapFile fun data => if data.id = handle.id then
        { data with content := content', records := records' } else data) ∘
      (Node.mapFile fun data => if data.id = handle.id then
        { data with content := content, records := records } else data) =
      Node.mapFile fun data => if data.id = handle.id then
        { data with content := content', records := records' } else data := by
    funext node
    cases node with
    | file data => by_cases hid : data.id = handle.id <;> simp [Node.mapFile, hid]
    | directory mode entries => rfl
    | link target => rfl
    | pipe => rfl
  simp only [store, update, Node.alter_map_map, hchange]

/-- The file system with nothing in an open file. -/
def veiled (fs : FileSystem) (handle : Handle) : FileSystem :=
  fs.store handle .empty none

theorem veiled_store (fs : FileSystem) (handle : Handle) (content : Content)
    (records : Option (List Archive.Record)) :
    (fs.store handle content records).veiled handle = fs.veiled handle :=
  store_store fs handle content .empty records none

theorem holds_of_store (h : (fs.store handle content records).Holds handle) : fs.Holds handle := by
  obtain ⟨hl, data, hfile, hid⟩ := h
  obtain ⟨node, hbefore, hnode⟩ := get?_of_bare_eq (bare_store fs handle content records) hfile
  obtain ⟨data', rfl⟩ := Node.eq_file_of_bare hnode
  have hafter : (fs.store handle content records).get? handle.location = _ :=
    get?_update hbefore hl _
  rw [hfile] at hafter
  refine ⟨hl, data', hbefore, ?_⟩
  have hdata : data = if data'.id = handle.id then
      { data' with content := content, records := records } else data' :=
    Node.file.inj (Option.some.inj hafter)
  by_cases hid' : data'.id = handle.id
  · exact hid'
  · rw [if_neg hid'] at hdata
    rw [← hdata, hid]

section Same

variable (h : fs'.veiled handle = fs.veiled handle)
include h

theorem bare_eq_of_veiled : fs'.bare = fs.bare := by
  calc
    fs'.bare = (fs'.veiled handle).bare := (bare_store fs' handle .empty none).symm
    _ = (fs.veiled handle).bare := by rw [h]
    _ = fs.bare := bare_store fs handle .empty none

theorem holds_of_veiled (hholds : fs.Holds handle) : fs'.Holds handle := by
  have hveiled : (fs.veiled handle).Holds handle := hholds.store .empty none
  rw [← h] at hveiled
  exact holds_of_store hveiled

theorem leadsTo_of_veiled (hleads : fs'.LeadsTo p l) : fs.LeadsTo p l :=
  hleads.of_bare_eq (bare_eq_of_veiled h)

theorem openFile_of_veiled (hholds : fs.Holds handle) (hapart : ¬fs.LeadsTo p handle.location) :
    fs'.openFile p = fs.openFile p := by
  have hapart' : ¬fs'.LeadsTo p handle.location := mt (leadsTo_of_veiled h) hapart
  calc
    fs'.openFile p = (fs'.veiled handle).openFile p :=
      (openFile_store (holds_of_veiled h hholds) hapart' .empty none).symm
    _ = (fs.veiled handle).openFile p := by rw [h]
    _ = fs.openFile p := openFile_store hholds hapart .empty none

end Same

end FileSystem

end TreeArchive
