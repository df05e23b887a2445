import TreeArchive.FileSystem.Operations

/-! Where a path leads is in the tree: the trail of a place leads to it from the root. -/
namespace TreeArchive

theorem Path.length_lt_child {p : Path} {name : Name} (h : isLegalName name = true) :
    p.bytes.length < (p.child name).bytes.length := by
  simp only [isLegalName, Bool.and_eq_true] at h
  have hlength : 0 < name.length := by
    have := h.1.1.1.1.1
    cases name <;> simp_all
  have hrelative : Path.isAbsolute ⟨name⟩ = false := by
    have hslash := h.1.2
    cases name with
    | nil => rfl
    | cons b rest =>
      have hne : b ≠ slash := by
        rintro rfl
        simp at hslash
      simp [isAbsolute, hne]
  simp only [child, append, hrelative, Bool.false_eq_true, if_false]
  split <;> simp only [List.length_append, List.length_cons] <;> omega

namespace Place

theorem child?_eq_some {place there : Place} {name : Name} :
    place.child? name = some there ↔ ∃ node, place.node.child? name = some node ∧
      there = ⟨node, (name, place.node) :: place.trail⟩ := by
  simp only [Place.child?, Option.map_eq_some_iff]
  constructor <;> rintro ⟨node, h, rfl⟩ <;> exact ⟨node, h, rfl⟩

theorem parent_of_child? {place there : Place} {name : Name} (h : place.child? name = some there) :
    there.parent = place := by
  obtain ⟨node, -, rfl⟩ := child?_eq_some.1 h
  rfl

theorem location_of_child? {place there : Place} {name : Name}
    (h : place.child? name = some there) : there.location = place.location ++ [name] := by
  obtain ⟨node, -, rfl⟩ := child?_eq_some.1 h
  simp [location]

end Place

/-- The place a spot is at; a free name is in its directory. -/
def Spot.place : Spot → Place
  | .occupied place => place
  | .vacant directory _ => directory

namespace FileSystem

/-- The root, and what is found from such a place by a name. -/
inductive Placed (fs : FileSystem) : Place → Prop where
  | root : Placed fs fs.rootPlace
  | child {place there : Place} {name : Name} (outer : Placed fs place)
      (h : place.child? name = some there) : Placed fs there

variable {fs : FileSystem}

namespace Placed

theorem parent {place : Place} (h : fs.Placed place) : fs.Placed place.parent := by
  cases h with
  | root => exact .root
  | child outer h => rwa [Place.parent_of_child? h]

theorem get?_location {place : Place} (h : fs.Placed place) :
    fs.get? place.location = some place.node := by
  induction h with
  | root => rfl
  | @child place there name outer h ih =>
    rw [Place.location_of_child? h, FileSystem.get?, Node.get?_concat, ← FileSystem.get?, ih]
    obtain ⟨node, hnode, rfl⟩ := Place.child?_eq_some.1 h
    exact hnode

theorem foldlM_child? {l : Location} {here there : Place} (hhere : fs.Placed here)
    (h : l.foldlM Place.child? here = some there) : fs.Placed there := by
  induction l generalizing here with
  | nil =>
    cases h
    exact hhere
  | cons name rest ih =>
    rw [List.foldlM_cons] at h
    obtain ⟨next, hnext, hrest⟩ := Option.bind_eq_some_iff.1 h
    exact ih (hhere.child hnext) hrest

theorem walk {follow : Bool} {budget : Nat} {here : Place} {steps : List Name} {spot : Spot}
    (hhere : fs.Placed here) (h : fs.walk follow budget here steps = .ok spot) :
    fs.Placed spot.place := by
  fun_induction FileSystem.walk fs follow budget here steps with
  | case1 => cases h; exact hhere
  | case2 _ _ _ _ _ _ ih => exact ih hhere h
  | case3 _ _ _ _ _ _ _ ih => exact ih hhere.parent h
  | case5 => cases h; exact hhere
  | case7 _ _ _ _ _ _ _ _ _ _ there hthere => cases h; exact hhere.child hthere
  | case9 _ _ _ _ _ _ _ _ _ there hthere target _ _ _ ih =>
    -- the target is read from the root or from where the link stands
    refine ih ?_ h
    split
    · exact .root
    · exact hhere
  | case10 _ _ _ _ _ _ _ _ _ _ there hthere _ ih => exact ih (hhere.child hthere) h
  | case4 | case6 | case8 | case11 => cases h

end Placed

theorem placed_of_start {p : Path} {place : Place} (h : fs.start p = .ok place) :
    fs.Placed place := by
  simp only [start] at h
  split at h
  · rename_i found hfound
    cases h
    exact Placed.root.foldlM_child? hfound
  · cases h

/-- What every path that can be looked up satisfies. -/
theorem checkPath_eq_ok {p : Path} : checkPath p = .ok () ↔
    p.bytes.contains 0 = false ∧ p.bytes.isEmpty = false ∧ p.bytes.length < maxPath := by
  unfold checkPath
  split
  · simp_all
  · split
    · simp_all
    · split
      · simp only [reduceCtorEq, false_iff]
        omega
      · simp_all

theorem resolve_eq_ok {p : Path} {steps : List Name} {links : Bool} {spot : Spot} :
    fs.resolve p steps links = .ok spot ↔
      ∃ here, fs.start p = .ok here ∧ fs.walk links maxLinks here steps = .ok spot := by
  rw [← bind_eq_ok]
  unfold resolve
  cases fs.start p >>= fun here => fs.walk links maxLinks here steps with
  | error errno => simp
  | ok found => simp

theorem locate_eq_ok {p : Path} {follow : Bool} {spot : Spot} :
    fs.locate p follow = .ok spot ↔ checkPath p = .ok () ∧
      ∃ here, fs.start p = .ok here ∧ fs.walk follow maxLinks here p.steps = .ok spot := by
  rw [locate, bind_eq_ok, ← resolve_eq_ok]
  constructor
  · intro h
    obtain ⟨u, hcheck, hresolve⟩ := h
    exact ⟨hcheck, hresolve⟩
  · intro h
    exact ⟨(), h⟩

theorem find_eq_ok {p : Path} {follow : Bool} {l : Location} {node : Node} :
    fs.find p follow = .ok (l, node) ↔
      ∃ place, fs.locate p follow = .ok (.occupied place) ∧ place.location = l ∧
        place.node = node := by
  rw [find, bind_eq_ok]
  constructor
  · intro h
    obtain ⟨spot, hlocate, hspot⟩ := h
    cases spot with
    | vacant directory name => cases hspot
    | occupied place =>
      cases hspot
      exact ⟨place, hlocate, rfl, rfl⟩
  · intro h
    obtain ⟨place, hlocate, rfl, rfl⟩ := h
    exact ⟨.occupied place, hlocate, rfl⟩

theorem placed_of_locate {p : Path} {follow : Bool} {spot : Spot}
    (h : fs.locate p follow = .ok spot) : fs.Placed spot.place := by
  obtain ⟨-, here, hstart, hwalk⟩ := locate_eq_ok.1 h
  exact (placed_of_start hstart).walk hwalk

theorem get?_of_find {p : Path} {follow : Bool} {l : Location} {node : Node}
    (h : fs.find p follow = .ok (l, node)) : fs.get? l = some node := by
  obtain ⟨place, hlocate, rfl, rfl⟩ := find_eq_ok.1 h
  exact (placed_of_locate hlocate).get?_location

theorem length_lt_of_find {p : Path} {follow : Bool} {l : Location} {node : Node}
    (h : fs.find p follow = .ok (l, node)) : p.bytes.length < maxPath := by
  obtain ⟨place, hlocate, -, -⟩ := find_eq_ok.1 h
  exact (checkPath_eq_ok.1 (locate_eq_ok.1 hlocate).1).2.2

theorem list_eq_ok {p : Path} {entries : List (Name × Kind)} :
    fs.list p = .ok entries ↔ ∃ l mode nodes, fs.find p true = .ok (l, .directory mode nodes) ∧
      entries = nodes.map fun (name, node) => (name, node.kind) := by
  rw [list, bind_eq_ok]
  constructor
  · intro h
    obtain ⟨⟨l, node⟩, hfind, hnode⟩ := h
    cases node with
    | directory mode nodes =>
      cases hnode
      exact ⟨l, mode, nodes, hfind, rfl⟩
    | file data => cases hnode
    | link target => cases hnode
    | pipe => cases hnode
  · intro h
    obtain ⟨l, mode, nodes, hfind, rfl⟩ := h
    exact ⟨(l, .directory mode nodes), hfind, rfl⟩

end FileSystem

end TreeArchive
