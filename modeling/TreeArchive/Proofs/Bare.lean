import TreeArchive.Proofs.Resolution

/-!
File systems that differ in nothing but what is in their files. A bare file system has empty files;
paths lead to the same places in it.
-/
namespace TreeArchive

namespace Node

mutual

/-- The node with empty files. -/
def bare : Node → Node
  | .directory mode entries => .directory mode (bareIn entries)
  | .file _ => .file ⟨0, 0, .empty, none⟩
  | .link target => .link target
  | .pipe => .pipe

def bareIn : List (Name × Node) → List (Name × Node)
  | [] => []
  | (name, node) :: rest => (name, bare node) :: bareIn rest

end

@[simp] theorem kind_bare (node : Node) : node.bare.kind = node.kind := by
  cases node <;> rfl

theorem bareIn_eq_map (entries : List (Name × Node)) :
    bareIn entries = entries.map fun e => (e.1, e.2.bare) := by
  induction entries with
  | nil => rfl
  | cons e rest ih => rw [bareIn, ih, List.map_cons]

@[simp] theorem map_fst_bareIn (entries : List (Name × Node)) :
    (bareIn entries).map Prod.fst = entries.map Prod.fst := by
  rw [bareIn_eq_map, List.map_map]
  rfl

@[simp] theorem lookup_bareIn (entries : List (Name × Node)) (name : Name) :
    (bareIn entries).lookup name = (entries.lookup name).map bare := by
  induction entries with
  | nil => rfl
  | cons e rest ih =>
    rw [bareIn, List.lookup_cons, List.lookup_cons, ih]
    split <;> rfl

@[simp] theorem child?_bare (node : Node) (name : Name) :
    node.bare.child? name = (node.child? name).map bare := by
  cases node with
  | directory mode entries => exact lookup_bareIn entries name
  | file data => rfl
  | link target => rfl
  | pipe => rfl

theorem get?_bare (l : Location) (node : Node) : get? l node.bare = (get? l node).map bare := by
  induction l generalizing node with
  | nil => rfl
  | cons name rest ih =>
    rw [get?, get?, child?_bare]
    cases node.child? name with
    | none => rfl
    | some child => exact ih child

theorem WellFormed.bare {node : Node} (h : node.WellFormed) : node.bare.WellFormed := by
  induction h with
  | @directory mode entries distinct legal inner ih =>
    apply WellFormed.directory (by rwa [map_fst_bareIn]) (by rwa [map_fst_bareIn])
    intro name node hmem
    rw [bareIn_eq_map] at hmem
    obtain ⟨e, he, heq⟩ := List.mem_map.1 hmem
    cases heq
    exact ih e.1 e.2 he
  | file data => exact .file _
  | link target => exact .link target
  | pipe => exact .pipe

end Node

def Place.bare (place : Place) : Place :=
  ⟨place.node.bare, place.trail.map fun e => (e.1, e.2.bare)⟩

def Spot.bare : Spot → Spot
  | .occupied place => .occupied place.bare
  | .vacant directory name => .vacant directory.bare name

namespace Place

@[simp] theorem bare_node (place : Place) : place.bare.node = place.node.bare := rfl

@[simp] theorem location_bare (place : Place) : place.bare.location = place.location := by
  simp only [location, bare, List.map_map]
  rfl

theorem child?_bare (place : Place) (name : Name) :
    place.bare.child? name = (place.child? name).map bare := by
  simp only [child?, bare_node, Node.child?_bare, Option.map_map]
  rfl

theorem parent_bare (place : Place) : place.bare.parent = place.parent.bare := by
  obtain ⟨node, trail⟩ := place
  cases trail with
  | nil => rfl
  | cons e outer => rfl

end Place

namespace FileSystem

/-- The file system with empty files. -/
def bare (fs : FileSystem) : FileSystem where
  root := fs.root.bare
  nextId := 0
  workingDirectory := fs.workingDirectory
  rooted := (Node.kind_bare fs.root).trans fs.rooted
  wellFormed := fs.wellFormed.bare

variable {fs fs' : FileSystem}

/-- Steps lead to the same place where files are empty. -/
theorem walk_bare (fs : FileSystem) (follow : Bool) (budget : Nat) (here : Place)
    (steps : List Name) : fs.bare.walk follow budget here.bare steps =
      (fs.walk follow budget here steps).map Spot.bare := by
  have hbare {here : Place} (hdir : here.node.kind = .directory) :
      here.bare.node.kind = .directory := by
    rwa [Place.bare_node, Node.kind_bare]
  have hchild_bare {here there : Place} {name : Name} (hchild : here.child? name = some there) :
      here.bare.child? name = some there.bare := by
    rw [Place.child?_bare, hchild]
    rfl
  -- a step looks at names, kinds and targets, and these are the same in both
  induction budget, here, steps using fs.walk_induct with
  | done budget here =>
    rw [walk, walk]
    rfl
  | dot budget here rest hdir ih => rw [walk_dot (hbare hdir), walk_dot hdir, ih]
  | dotDot budget here rest hdir ih =>
    rw [walk_dotDot (hbare hdir), walk_dotDot hdir, Place.parent_bare, ih]
  | long budget here step rest hdir hdot hdotDot hlong =>
    rw [walk_long (hbare hdir) hdot hdotDot hlong, walk_long hdir hdot hdotDot hlong]
    rfl
  | missing budget here step rest hdir hstep hchild =>
    have hmissing : here.bare.child? step = none := by
      rw [Place.child?_bare, hchild]
      rfl
    rw [walk_missing (hbare hdir) hstep hmissing, walk_missing hdir hstep hchild]
    split <;> rfl
  | link budget here step rest there target hdir hstep hchild hlink ih =>
    have hlink_bare : there.bare.node = .link target := by
      rw [Place.bare_node, hlink]
      rfl
    have hstart : (if target.isAbsolute then fs.bare.rootPlace else here.bare) =
        (if target.isAbsolute then fs.rootPlace else here).bare := by
      split <;> rfl
    rw [walk_link (hbare hdir) hstep (hchild_bare hchild) hlink_bare,
      walk_link hdir hstep hchild hlink]
    cases rest.isEmpty && !follow with
    | true => rfl
    | false =>
      cases budget with
      | zero => rfl
      | succ left =>
        have hleft := ih left rfl
        rw [← hstart] at hleft
        exact hleft
  | node budget here step rest there hdir hstep hchild hlink ih =>
    have hkind : there.bare.node.kind ≠ .link := by rwa [Place.bare_node, Node.kind_bare]
    rw [walk_node (hbare hdir) hstep (hchild_bare hchild) hkind, walk_node hdir hstep hchild hlink,
      ih]
  | blocked budget here step rest hkind =>
    have hkind_bare : here.bare.node.kind ≠ .directory := by rwa [Place.bare_node, Node.kind_bare]
    rw [walk_not_directory hkind_bare, walk_not_directory hkind]
    rfl

theorem start_bare (fs : FileSystem) (p : Path) :
    fs.bare.start p = (fs.start p).map Place.bare := by
  have hfold (l : Location) (here : Place) :
      l.foldlM Place.child? here.bare = (l.foldlM Place.child? here).map Place.bare := by
    induction l generalizing here with
    | nil => rfl
    | cons name rest ih =>
      rw [List.foldlM_cons, List.foldlM_cons, Place.child?_bare]
      cases here.child? name with
      | none => rfl
      | some there => exact ih there
  unfold start
  rw [show fs.bare.rootPlace = fs.rootPlace.bare from rfl,
    show fs.bare.workingDirectory = fs.workingDirectory from rfl]
  simp only [hfold]
  cases (if p.isAbsolute then [] else fs.workingDirectory).foldlM Place.child? fs.rootPlace <;> rfl

theorem locate_bare (fs : FileSystem) (p : Path) (follow : Bool) :
    fs.bare.locate p follow = (fs.locate p follow).map Spot.bare := by
  unfold locate resolve
  rw [start_bare]
  cases checkPath p with
  | error e => rfl
  | ok u =>
    cases fs.start p with
    | error e => rfl
    | ok here =>
      simp only [bind, Except.bind, Except.map, walk_bare]
      cases fs.walk follow maxLinks here p.steps <;> rfl

theorem find_bare (fs : FileSystem) (p : Path) (follow : Bool) :
    fs.bare.find p follow = (fs.find p follow).map fun found => (found.1, found.2.bare) := by
  unfold find
  rw [locate_bare]
  cases fs.locate p follow with
  | error e => rfl
  | ok spot =>
    cases spot with
    | occupied place => simp [bind, Except.bind, Except.map, Spot.bare]
    | vacant directory name => rfl

theorem list_bare (fs : FileSystem) (p : Path) : fs.bare.list p = fs.list p := by
  unfold list
  rw [find_bare]
  cases fs.find p true with
  | error e => rfl
  | ok found =>
    obtain ⟨l, node⟩ := found
    cases node with
    | directory mode nodes =>
      simp [bind, Except.bind, Except.map, Node.bare, Node.bareIn_eq_map]
    | file data => rfl
    | link target => rfl
    | pipe => rfl

end FileSystem

namespace Node

variable {change : Node → Node}

theorem bareIn_alterEntry (h : ∀ node, (change node).bare = node.bare) (name : Name)
    (entries : List (Name × Node)) :
    bareIn (alterEntry (Option.map change) name entries) = bareIn entries := by
  unfold alterEntry
  split
  · rfl
  · -- every entry of the name is changed, so the list is taken entry by entry
    clear * - h
    simp only [Option.map_some]
    induction entries with
    | nil => rfl
    | cons e rest ih =>
      by_cases heq : e.1 = name
      · simp [heq, bareIn, h, ih]
      · simp [heq, bareIn, ih]

/-- A change that keeps nodes as they are but for files keeps the tree so. -/
theorem bare_alter (h : ∀ node, (change node).bare = node.bare) (l : Location) (node : Node) :
    (node.alter (Option.map change) l).bare = node.bare := by
  induction l generalizing node with
  | nil => cases node <;> rfl
  | cons name rest ih =>
    cases node with
    | directory mode entries =>
      cases rest with
      | nil => simp [alter, bare, bareIn_alterEntry h]
      | cons next rest => simp [alter, bare, bareIn_alterEntry ih]
    | file data => simp [alter, bare]
    | link target => simp [alter, bare]
    | pipe => simp [alter, bare]

end Node

/-- Whatever is stored in a file, the paths lead where they did. -/
theorem FileSystem.bare_store (fs : FileSystem) (h : Handle) (content : Content)
    (records : Option (List Archive.Record)) : (fs.store h content records).bare = fs.bare := by
  have hroot : (fs.store h content records).root.bare = fs.root.bare := by
    apply Node.bare_alter
    intro node
    cases node <;> rfl
  unfold bare
  simp only [hroot]
  rfl

namespace FileSystem

variable {fs fs' : FileSystem}

theorem find_of_bare_eq (h : fs.bare = fs'.bare) {p : Path} {follow : Bool} {l : Location}
    {node : Node} (hfind : fs.find p follow = .ok (l, node)) :
    ∃ node', fs'.find p follow = .ok (l, node') ∧ node'.bare = node.bare := by
  have hbare := find_bare fs p follow
  rw [h, find_bare, hfind] at hbare
  cases hfind' : fs'.find p follow with
  | error e =>
    rw [hfind'] at hbare
    cases hbare
  | ok found =>
    obtain ⟨l', node'⟩ := found
    rw [hfind'] at hbare
    obtain ⟨rfl, hnode⟩ := Prod.mk.inj (Except.ok.inj hbare)
    exact ⟨node', rfl, hnode⟩

theorem get?_of_bare_eq (h : fs.bare = fs'.bare) {l : Location} {node : Node}
    (hget : fs.get? l = some node) : ∃ node', fs'.get? l = some node' ∧ node'.bare = node.bare := by
  have hbare := Node.get?_bare l fs.root
  have hroot : fs.root.bare = fs'.root.bare := congrArg FileSystem.root h
  rw [hroot, Node.get?_bare] at hbare
  rw [get?] at hget
  rw [hget] at hbare
  exact Option.map_eq_some_iff.1 hbare

end FileSystem

theorem Node.eq_file_of_bare {node : Node} {data : FileData} (h : node.bare = (file data).bare) :
    ∃ data', node = .file data' := by
  cases node with
  | file data' => exact ⟨data', rfl⟩
  | directory mode entries => cases h
  | link target => cases h
  | pipe => cases h

end TreeArchive
