import TreeArchive.Proofs.Altered
import TreeArchive.Proofs.Resolution

/-! Adding a node takes no path away, and the free name that a path led to leads to the node. -/
namespace TreeArchive

namespace Node

/-- Two nodes that a path goes on from in the same way, apart from what directories hold. -/
def Similar (node node' : Node) : Prop :=
  node'.kind = node.kind ∧ ∀ target, node = .link target → node' = .link target

theorem Similar.refl (node : Node) : node.Similar node :=
  ⟨rfl, fun _ h => h⟩

theorem similar_alter (change : Option Node → Option Node) (l : Location) (node : Node) :
    node.Similar (node.alter change l) := by
  refine ⟨kind_alter change l node, ?_⟩
  rintro target rfl
  cases l <;> simp [alter]

theorem lookup_alterEntry_of_ne (change : Option Node → Option Node) {name other : Name}
    (h : other ≠ name) (entries : List (Name × Node)) :
    (alterEntry change name entries).lookup other = entries.lookup other := by
  have hne : (other == name) = false := beq_eq_false_iff_ne.2 h
  unfold alterEntry
  split
  · cases change none with
    | none => rfl
    | some node => simp [List.lookup_cons, hne]
  · rename_i hlookup
    clear hlookup
    induction entries with
    | nil => rfl
    | cons e rest ih =>
      obtain ⟨k, inner⟩ := e
      by_cases hk : k = name
      · subst hk
        rw [List.lookup_cons, hne]
        cases hchange : change (some inner) with
        | none => simpa [hchange] using ih
        | some new => simpa [hchange, List.lookup_cons, hne] using ih
      · rw [List.filterMap_cons_some (b := (k, inner)) (by simp [hk]), List.lookup_cons,
          List.lookup_cons, ih]

/-- What stood somewhere before a node was added still stands there. -/
theorem similar_of_added {new : Node} {l other : Location} {node inner : Node}
    (h : node.get? other = some inner) :
    ∃ inner', (node.alter (fun old => some (old.getD new)) l).get? other = some inner' ∧
      inner.Similar inner' := by
  induction other generalizing l node with
  | nil =>
    obtain rfl := Option.some.inj h
    exact ⟨_, rfl, similar_alter _ l _⟩
  | cons k rest ih =>
    rw [get?] at h
    obtain ⟨child, hchild, hrest⟩ := Option.bind_eq_some_iff.1 h
    obtain ⟨mode, entries, rfl⟩ := exists_of_child? hchild
    have hlookup : entries.lookup k = some child := hchild
    rcases l with _ | ⟨name, _ | ⟨next, l⟩⟩
    · exact ⟨inner, h, .refl inner⟩
    · -- the node that is added stands in this directory, under a name that may be taken
      refine ⟨inner, ?_, .refl inner⟩
      have hsame : (alterEntry (fun old => some (old.getD new)) name entries).lookup k =
          some child := by
        by_cases hk : k = name
        · subst hk
          rw [lookup_alterEntry_self (by simp), hlookup]
          rfl
        · rw [lookup_alterEntry_of_ne _ hk, hlookup]
      rw [alter, get?, child?]
      simp only [Node.entries, hsame, Option.bind_some, hrest]
    · -- the change goes on inside one entry and leaves the others alone
      by_cases hk : k = name
      · subst hk
        obtain ⟨inner', hinner', hsimilar⟩ := ih (l := next :: l) hrest
        refine ⟨inner', ?_, hsimilar⟩
        have hself :
            (alterEntry (Option.map (alter (fun old => some (old.getD new)) (next :: l))) k
                entries).lookup k =
              some (child.alter (fun old => some (old.getD new)) (next :: l)) := by
          rw [lookup_alterEntry_self (by simp), hlookup]
          rfl
        rw [alter, get?, child?]
        · simp only [Node.entries, hself, Option.bind_some]
          exact hinner'
        · simp
      · refine ⟨inner, ?_, .refl inner⟩
        rw [alter, get?, child?]
        · simp only [Node.entries, lookup_alterEntry_of_ne _ hk, hlookup, Option.bind_some, hrest]
        · simp

end Node

namespace FileSystem

/-- Everything that stands in the first file system stands in the second. -/
def Extends (fs fs' : FileSystem) : Prop :=
  fs'.workingDirectory = fs.workingDirectory ∧ ∀ l node, fs.get? l = some node →
    ∃ node', fs'.get? l = some node' ∧ node.Similar node'

theorem extends_of_insert? {fs fs' : FileSystem} {l : Location} {node : Node}
    (h : fs.insert? l node = some fs') : fs.Extends fs' := by
  unfold insert? at h
  split at h
  · cases h
    exact ⟨rfl, fun other inner hinner => Node.similar_of_added hinner⟩
  · cases h

end FileSystem

theorem Place.location_parent (place : Place) :
    place.parent.location = place.location.dropLast := by
  obtain ⟨node, trail⟩ := place
  cases trail with
  | nil => rfl
  | cons e outer => simp [parent, location]

/-- Where a spot is: a free name is where its node would stand. -/
def Spot.location : Spot → Location
  | .occupied place => place.location
  | .vacant directory name => directory.location ++ [name]

namespace FileSystem

variable {fs fs' : FileSystem} {here here' there : Place}

theorem Placed.child?_eq (h : fs.Placed here) {name : Name} {node : Node}
    (hget : fs.get? (here.location ++ [name]) = some node) :
    here.child? name = some ⟨node, (name, here.node) :: here.trail⟩ := by
  have hhere := h.get?_location
  rw [get?] at hget hhere
  rw [Node.get?_concat, hhere] at hget
  exact Place.child?_eq_some.2 ⟨node, hget, rfl⟩

/-- A step to a node can be taken in an extended file system. -/
theorem Extends.child? (hext : fs.Extends fs') (h : fs.Placed here) (h' : fs'.Placed here')
    (hlocation : here'.location = here.location) {name : Name}
    (hchild : here.child? name = some there) :
    ∃ there', here'.child? name = some there' ∧ fs'.Placed there' ∧
      there'.location = there.location ∧ there.node.Similar there'.node := by
  have hthere := (h.child hchild).get?_location
  obtain ⟨node', hnode', hsimilar⟩ := hext.2 _ _ hthere
  rw [Place.location_of_child? hchild, ← hlocation] at hnode'
  have hchild' := h'.child?_eq hnode'
  refine ⟨_, hchild', h'.child hchild', ?_, hsimilar⟩
  rw [Place.location_of_child? hchild', Place.location_of_child? hchild, hlocation]

theorem Extends.similar (hext : fs.Extends fs') (h : fs.Placed here) (h' : fs'.Placed here')
    (hlocation : here'.location = here.location) : here.node.Similar here'.node := by
  obtain ⟨node', hnode', hsimilar⟩ := hext.2 _ _ h.get?_location
  rw [← hlocation, h'.get?_location] at hnode'
  cases hnode'
  exact hsimilar

/-- Steps that lead to a node lead there in an extended file system, and steps that lead to a free
name lead to the node that it has there. -/
theorem Extends.walk (hext : fs.Extends fs') {follow : Bool} {budget : Nat} {steps : List Name}
    {spot : Spot} (h : fs.Placed here) (h' : fs'.Placed here')
    (hlocation : here'.location = here.location)
    (hwalk : fs.walk follow budget here steps = .ok spot)
    (hnew : ∀ directory name, spot = .vacant directory name →
      ∃ node, fs'.get? (directory.location ++ [name]) = some node ∧ node.kind ≠ .link) :
    ∃ place, fs'.walk follow budget here' steps = .ok (.occupied place) ∧
      place.location = spot.location ∧ fs'.Placed place := by
  have hkind {here here' : Place} (h : fs.Placed here) (h' : fs'.Placed here')
      (hlocation : here'.location = here.location) (hdir : here.node.kind = .directory) :
      here'.node.kind = .directory := by
    rwa [(hext.similar h h' hlocation).1]
  induction budget, here, steps using fs.walk_induct generalizing here' with
  | done budget here =>
    rw [FileSystem.walk] at hwalk
    cases hwalk
    exact ⟨here', by rw [FileSystem.walk], hlocation, h'⟩
  | dot budget here rest hdir ih =>
    rw [walk_dot hdir] at hwalk
    rw [walk_dot (hkind h h' hlocation hdir)]
    exact ih h h' hlocation hwalk
  | dotDot budget here rest hdir ih =>
    rw [walk_dotDot hdir] at hwalk
    rw [walk_dotDot (hkind h h' hlocation hdir)]
    have hparent : here'.parent.location = here.parent.location := by
      rw [Place.location_parent, Place.location_parent, hlocation]
    exact ih h.parent h'.parent hparent hwalk
  | long budget here step rest hdir hdot hdotDot hlong =>
    rw [walk_long hdir hdot hdotDot hlong] at hwalk
    cases hwalk
  | missing budget here step rest hdir hstep hchild =>
    -- the only step that goes otherwise: what was free may be what has been added
    rw [walk_missing hdir hstep hchild] at hwalk
    split at hwalk
    · rename_i hrest
      cases hwalk
      obtain ⟨node, hget, hlink⟩ := hnew here step rfl
      rw [← hlocation] at hget
      have hchild' := h'.child?_eq hget
      rw [walk_node (hkind h h' hlocation hdir) hstep hchild' hlink, List.isEmpty_iff.1 hrest]
      refine ⟨_, by rw [FileSystem.walk], ?_, h'.child hchild'⟩
      rw [Place.location_of_child? hchild', hlocation]
      rfl
    · cases hwalk
  | link budget here step rest there target hdir hstep hchild hlink ih =>
    obtain ⟨there', hchild', hthere', hsame, hsimilar⟩ := hext.child? h h' hlocation hchild
    rw [walk_link hdir hstep hchild hlink] at hwalk
    rw [walk_link (hkind h h' hlocation hdir) hstep hchild' (hsimilar.2 target hlink)]
    cases hlast : rest.isEmpty && !follow with
    | true =>
      rw [hlast] at hwalk
      cases hwalk
      exact ⟨there', rfl, hsame, hthere'⟩
    | false =>
      rw [hlast] at hwalk
      cases budget with
      | zero => cases hwalk
      | succ left =>
        by_cases habsolute : target.isAbsolute = true
        · simp only [habsolute, if_true] at ih hwalk ⊢
          exact ih left rfl .root .root rfl hwalk
        · simp only [habsolute, if_false, Bool.false_eq_true] at ih hwalk ⊢
          exact ih left rfl h h' hlocation hwalk
  | node budget here step rest there hdir hstep hchild hlink ih =>
    obtain ⟨there', hchild', hthere', hsame, hsimilar⟩ := hext.child? h h' hlocation hchild
    have hlink' : there'.node.kind ≠ .link := by rwa [hsimilar.1]
    rw [walk_node hdir hstep hchild hlink] at hwalk
    rw [walk_node (hkind h h' hlocation hdir) hstep hchild' hlink']
    exact ih (h.child hchild) hthere' hsame hwalk
  | blocked budget here step rest hblocked =>
    rw [walk_not_directory hblocked] at hwalk
    cases hwalk

theorem Extends.start (hext : fs.Extends fs') {p : Path} (h : fs.start p = .ok here) :
    ∃ here', fs'.start p = .ok here' ∧ fs'.Placed here' ∧ here'.location = here.location := by
  have hfold (l : Location) {here here' there : Place} (h : fs.Placed here) (h' : fs'.Placed here')
      (hlocation : here'.location = here.location)
      (hthere : l.foldlM Place.child? here = some there) :
      ∃ there', l.foldlM Place.child? here' = some there' ∧ fs'.Placed there' ∧
        there'.location = there.location := by
    induction l generalizing here here' with
    | nil =>
      cases hthere
      exact ⟨here', rfl, h', hlocation⟩
    | cons name rest ih =>
      rw [List.foldlM_cons] at hthere
      obtain ⟨next, hnext, hrest⟩ := Option.bind_eq_some_iff.1 hthere
      obtain ⟨next', hnext', hplaced, hsame, -⟩ := hext.child? h h' hlocation hnext
      obtain ⟨there', hthere', hfinal⟩ := ih (h.child hnext) hplaced hsame hrest
      exact ⟨there', by rw [List.foldlM_cons, hnext']; exact hthere', hfinal⟩
  unfold FileSystem.start at h ⊢
  rw [hext.1]
  simp only at h ⊢
  split at h
  · rename_i found hfound
    cases h
    obtain ⟨there', hthere', hplaced, hsame⟩ := hfold _ .root .root rfl hfound
    exact ⟨there', by rw [hthere'], hplaced, hsame⟩
  · cases h

/-- A path that leads to a node, or to a name under which one has been added, leads to it. -/
theorem Extends.locate (hext : fs.Extends fs') {p : Path} {follow : Bool} {spot : Spot}
    (h : fs.locate p follow = .ok spot)
    (hnew : ∀ directory name, spot = .vacant directory name →
      ∃ node, fs'.get? (directory.location ++ [name]) = some node ∧ node.kind ≠ .link) :
    ∃ place, fs'.locate p follow = .ok (.occupied place) ∧ place.location = spot.location ∧
      fs'.Placed place := by
  obtain ⟨hcheck, here, hstart, hwalk⟩ := locate_eq_ok.1 h
  obtain ⟨here', hstart', hplaced, hlocation⟩ := hext.start hstart
  obtain ⟨place, hwalk', hfinal⟩ := hext.walk (placed_of_start hstart) hplaced hlocation hwalk hnew
  exact ⟨place, locate_eq_ok.2 ⟨hcheck, here', hstart', hwalk'⟩, hfinal⟩

/-- A free name is free whether or not a link at the end would be followed. -/
theorem locate_vacant {p : Path} {directory : Place} {name : Name}
    (h : fs.locate p false = .ok (.vacant directory name)) (follow : Bool) :
    fs.locate p follow = .ok (.vacant directory name) := by
  cases follow with
  | false => exact h
  | true =>
    obtain ⟨hcheck, here, hstart, hwalk⟩ := locate_eq_ok.1 h
    refine locate_eq_ok.2 ⟨hcheck, here, hstart, ?_⟩
    rcases fs.walk_follow maxLinks here p.steps with ⟨place, hlink, -⟩ | hsame
    · rw [hwalk] at hlink
      cases hlink
    · rw [hsame, hwalk]

/-- A new file is added at the free name that its path leads to. -/
theorem exists_insert?_of_createNew {p : Path} {handle : Handle}
    (h : fs.createNew p = .ok (fs', handle)) :
    ∃ directory name grown, fs.locate p false = .ok (.vacant directory name) ∧
      handle = ⟨directory.location ++ [name], fs.nextId⟩ ∧
      fs.insert? handle.location (.file ⟨handle.id, 0o644, .empty, none⟩) = some grown ∧
      fs' = { grown with nextId := grown.nextId + 1 } := by
  unfold createNew at h
  split at h
  · -- a path that ends in a separator cannot name a new file
    obtain ⟨u, -, h⟩ := bind_eq_ok.1 h
    obtain ⟨spot, -, h⟩ := bind_eq_ok.1 h
    split at h <;> cases h
  · obtain ⟨spot, hlocate, h⟩ := bind_eq_ok.1 h
    cases spot with
    | occupied place => cases h
    | vacant directory name =>
      obtain ⟨added, hadd, h⟩ := bind_eq_ok.1 h
      cases h
      unfold addFile at hadd
      split at hadd
      · rename_i grown hinsert
        cases hadd
        exact ⟨directory, name, grown, hlocate, rfl, hinsert, rfl⟩
      · cases hadd

theorem createNew_eq_ok {p : Path} {handle : Handle} (h : fs.createNew p = .ok (fs', handle)) :
    ∃ directory name, fs.locate p false = .ok (.vacant directory name) ∧
      handle = ⟨directory.location ++ [name], fs.nextId⟩ ∧ fs.Extends fs' ∧
      fs.get? handle.location = none ∧ handle.location ≠ [] ∧
      fs'.get? handle.location = some (.file ⟨handle.id, 0o644, .empty, none⟩) := by
  obtain ⟨directory, name, grown, hlocate, hhandle, hinsert, rfl⟩ := exists_insert?_of_createNew h
  obtain ⟨hl, hnone, hself⟩ := insert?_eq_some hinsert
  have hgrown := extends_of_insert? hinsert
  exact ⟨directory, name, hlocate, hhandle, ⟨hgrown.1, hgrown.2⟩, hnone, hl, hself⟩

/-- The path of a new file leads to it. -/
theorem find_createNew {p : Path} {handle : Handle} (h : fs.createNew p = .ok (fs', handle))
    (follow : Bool) :
    fs'.find p follow = .ok (handle.location, .file ⟨handle.id, 0o644, .empty, none⟩) := by
  obtain ⟨directory, name, hlocate, rfl, hext, -, -, hself⟩ := createNew_eq_ok h
  obtain ⟨place, hplace, hlocation, hplaced⟩ := hext.locate (locate_vacant hlocate follow) (by
    rintro _ _ ⟨⟩
    exact ⟨_, hself, by simp [Node.kind]⟩)
  refine find_eq_ok.2 ⟨place, hplace, hlocation, ?_⟩
  have hget := hplaced.get?_location
  rw [hlocation] at hget
  exact Option.some.inj (hget.symm.trans hself)

end FileSystem

end TreeArchive
