import TreeArchive.Proofs.LeftOut
import TreeArchive.Proofs.RunFrame

/-!
File systems with the same names, kinds and links. They may differ in what is in the files and in
the order in which directories list their entries. A sorted walk goes the same way in both, as long
as the files that it yields have the same sizes.
-/
namespace TreeArchive

open FileSystem

namespace Node

/-- What a path can make out of a node: neither what is in a file nor what is in a directory. -/
def outline (node : Node) : Node :=
  node.shell.bare

@[simp] theorem kind_outline (node : Node) : node.outline.kind = node.kind := by
  rw [outline, kind_bare, kind_shell]

theorem kind_eq_of_outline {node node' : Node} (h : node'.outline = node.outline) :
    node'.kind = node.kind := by
  rw [← kind_outline, h, kind_outline]

theorem outline_eq_link {node : Node} {target : Path} :
    node.outline = .link target ↔ node = .link target := by
  cases node <;> simp [outline, shell, bare]

end Node

/-- What shows of a spot if neither files nor entries are looked at. -/
def Spot.sketch : Spot → Location × Option Node
  | .occupied place => (place.location, some place.node.outline)
  | .vacant directory name => (directory.location ++ [name], none)

namespace FileSystem

/-- Two file systems have the same nodes, but for what is in files and for the order of entries. -/
structure SameOutline (fs fs' : FileSystem) : Prop where
  workingDirectory : fs'.workingDirectory = fs.workingDirectory
  outline : ∀ l, (fs'.get? l).map Node.outline = (fs.get? l).map Node.outline

/-- Places at one location of two file systems. -/
structure Beside (fs fs' : FileSystem) (here here' : Place) : Prop where
  placed : fs.Placed here
  placed' : fs'.Placed here'
  location : here'.location = here.location

variable {fs fs' : FileSystem} {here here' there : Place} {l : Location} {p : Path}
  {follow : Bool}

theorem SameOutline.symm (h : fs.SameOutline fs') : fs'.SameOutline fs :=
  ⟨h.workingDirectory.symm, fun l => (h.outline l).symm⟩

theorem ne_directory_of_file {data : FileData} (hfile : fs.get? l = some (.file data)) :
    ∀ node, fs.get? l = some node → node.kind ≠ .directory := by
  intro node hnode
  rw [hfile] at hnode
  cases hnode
  simp [Node.kind]

/-- Whatever stands in its place, a file has the same outline. -/
theorem SameElsewhere.sameOutline {data data' : FileData} (h : fs.SameElsewhere fs' l)
    (hfile : fs.get? l = some (.file data)) (hfile' : fs'.get? l = some (.file data')) :
    fs.SameOutline fs' := by
  refine ⟨h.workingDirectory, ?_⟩
  intro other
  by_cases hother : other = l
  · rw [hother, hfile, hfile']
    rfl
  · have hshell := congrArg (Option.map Node.bare)
      (h.shell_of_ne (ne_directory_of_file hfile) (ne_directory_of_file hfile') hother)
    rwa [Option.map_map, Option.map_map] at hshell

namespace Beside

theorem root : Beside fs fs' fs.rootPlace fs'.rootPlace :=
  ⟨.root, .root, rfl⟩

theorem outline (h : Beside fs fs' here here') (hsame : fs.SameOutline fs') :
    here'.node.outline = here.node.outline := by
  have houtline := hsame.outline here.location
  rw [h.placed.get?_location, ← h.location, h.placed'.get?_location] at houtline
  exact Option.some.inj houtline

theorem kind (h : Beside fs fs' here here') (hsame : fs.SameOutline fs') :
    here'.node.kind = here.node.kind :=
  Node.kind_eq_of_outline (h.outline hsame)

theorem parent (h : Beside fs fs' here here') : Beside fs fs' here.parent here'.parent where
  placed := h.placed.parent
  placed' := h.placed'.parent
  location := by rw [Place.location_parent, Place.location_parent, h.location]

/-- A step finds the same name in both, or in neither. -/
theorem child (h : Beside fs fs' here here') (hsame : fs.SameOutline fs') (name : Name) :
    (here.child? name = none ∧ here'.child? name = none) ∨
    ∃ there there', here.child? name = some there ∧ here'.child? name = some there' ∧
      Beside fs fs' there there' := by
  have hget := hsame.outline (here.location ++ [name])
  have hget' := get?_child h.placed' name
  rw [h.location] at hget'
  rw [hget', get?_child h.placed] at hget
  cases hchild : here.child? name with
  | none =>
    rw [hchild] at hget
    exact .inl ⟨rfl, by simpa using hget⟩
  | some there =>
    cases hchild' : here'.child? name with
    | none =>
      rw [hchild, hchild'] at hget
      cases hget
    | some there' =>
      refine .inr ⟨there, there', rfl, rfl, h.placed.child hchild, h.placed'.child hchild', ?_⟩
      rw [Place.location_of_child? hchild, Place.location_of_child? hchild', h.location]

theorem of_child? (h : Beside fs fs' here here') (hsame : fs.SameOutline fs') {name : Name}
    (hchild : here.child? name = some there) :
    ∃ there', here'.child? name = some there' ∧ Beside fs fs' there there' := by
  rcases h.child hsame name with ⟨hnone, -⟩ | ⟨found, there', hfound, hchild', hthere⟩
  · rw [hchild] at hnone
    cases hnone
  · obtain rfl := Option.some.inj (hchild.symm.trans hfound)
    exact ⟨there', hchild', hthere⟩

/-- Steps lead to the same sketch in both file systems. -/
theorem walk (h : Beside fs fs' here here') (hsame : fs.SameOutline fs') {budget : Nat}
    {steps : List Name} : (fs'.walk follow budget here' steps).map Spot.sketch =
      (fs.walk follow budget here steps).map Spot.sketch := by
  have hdir {here here' : Place} (h : Beside fs fs' here here')
      (hkind : here.node.kind = .directory) : here'.node.kind = .directory :=
    (h.kind hsame).trans hkind
  -- the places stay beside each other, so that both walks go the same way at each step
  induction budget, here, steps using fs.walk_induct generalizing here' with
  | done budget here =>
    rw [FileSystem.walk, FileSystem.walk]
    simp only [Except.map, Spot.sketch, h.location, h.outline hsame]
  | dot budget here rest hkind ih =>
    rw [walk_dot (hdir h hkind), walk_dot hkind]
    exact ih h
  | dotDot budget here rest hkind ih =>
    rw [walk_dotDot (hdir h hkind), walk_dotDot hkind]
    exact ih h.parent
  | long budget here step rest hkind hdot hdotDot hlong =>
    rw [walk_long (hdir h hkind) hdot hdotDot hlong, walk_long hkind hdot hdotDot hlong]
  | missing budget here step rest hkind hstep hchild =>
    rcases h.child hsame step with ⟨-, hchild'⟩ | ⟨there, -, hfound, -⟩
    · rw [walk_missing (hdir h hkind) hstep hchild', walk_missing hkind hstep hchild]
      split
      · simp only [Except.map, Spot.sketch, h.location]
      · rfl
    · rw [hchild] at hfound
      cases hfound
  | link budget here step rest there target hkind hstep hchild hlink ih =>
    obtain ⟨there', hchild', hthere⟩ := h.of_child? hsame hchild
    have hlink' : there'.node = .link target := by
      rw [← Node.outline_eq_link, hthere.outline hsame, Node.outline_eq_link, hlink]
    rw [walk_link (hdir h hkind) hstep hchild' hlink', walk_link hkind hstep hchild hlink]
    cases hlast : rest.isEmpty && !follow with
    | true => simp only [if_true, Except.map, Spot.sketch, hthere.location, hthere.outline hsame]
    | false =>
      cases budget with
      | zero => rfl
      | succ left =>
        -- the target is read from the root or from the directory of the link, in both alike
        by_cases habsolute : target.isAbsolute = true
        · simp only [habsolute, if_true] at ih ⊢
          exact ih left rfl .root
        · simp only [habsolute, if_false, Bool.false_eq_true] at ih ⊢
          exact ih left rfl h
  | node budget here step rest there hkind hstep hchild hlink ih =>
    obtain ⟨there', hchild', hthere⟩ := h.of_child? hsame hchild
    have hlink' : there'.node.kind ≠ .link := by rwa [hthere.kind hsame]
    rw [walk_node (hdir h hkind) hstep hchild' hlink', walk_node hkind hstep hchild hlink]
    exact ih hthere
  | blocked budget here step rest hblocked =>
    have hblocked' : here'.node.kind ≠ .directory := by rwa [h.kind hsame]
    rw [walk_not_directory hblocked', walk_not_directory hblocked]

theorem foldlM_child? (h : Beside fs fs' here here') (hsame : fs.SameOutline fs')
    (names : List Name) :
    (names.foldlM Place.child? here = none ∧ names.foldlM Place.child? here' = none) ∨
    ∃ there there', names.foldlM Place.child? here = some there ∧
      names.foldlM Place.child? here' = some there' ∧ Beside fs fs' there there' := by
  induction names generalizing here here' with
  | nil => exact .inr ⟨here, here', rfl, rfl, h⟩
  | cons name rest ih =>
    simp only [List.foldlM_cons]
    rcases h.child hsame name with ⟨hnone, hnone'⟩ | ⟨there, there', hchild, hchild', hthere⟩
    · rw [hnone, hnone']
      exact .inl ⟨rfl, rfl⟩
    · rw [hchild, hchild']
      exact ih hthere

end Beside

namespace SameOutline

theorem start_cases (h : fs.SameOutline fs') (p : Path) :
    (fs.start p = .error .noEntry ∧ fs'.start p = .error .noEntry) ∨
    ∃ here here', fs.start p = .ok here ∧ fs'.start p = .ok here' ∧ Beside fs fs' here here' := by
  have hroot : Beside fs fs' fs.rootPlace fs'.rootPlace := .root
  unfold start
  rw [h.workingDirectory]
  rcases hroot.foldlM_child? h (if p.isAbsolute then [] else fs.workingDirectory) with
    ⟨hnone, hnone'⟩ | ⟨there, there', hthere, hthere', hbeside⟩
  · exact .inl ⟨by simp only [hnone], by simp only [hnone']⟩
  · exact .inr ⟨there, there', by simp only [hthere], by simp only [hthere'], hbeside⟩

/-- Steps of a path lead to the same sketch in both file systems. -/
theorem resolve (h : fs.SameOutline fs') (p : Path) (steps : List Name) (links : Bool) :
    (fs'.resolve p steps links).map Spot.sketch = (fs.resolve p steps links).map Spot.sketch := by
  have hsystem (w : Except Errno Spot) : (w.mapError IoError.system).map Spot.sketch =
      (w.map Spot.sketch).mapError IoError.system := by
    cases w <;> rfl
  simp only [resolve_eq_mapError, hsystem, bind, Except.bind]
  rcases h.start_cases p with ⟨hstart, hstart'⟩ | ⟨here, here', hstart, hstart', hbeside⟩
  · rw [hstart, hstart']
  · rw [hstart, hstart']
    exact congrArg _ (hbeside.walk h)

/-- A path leads to the same sketch in both file systems. -/
theorem locate (h : fs.SameOutline fs') (p : Path) (follow : Bool) :
    (fs'.locate p follow).map Spot.sketch = (fs.locate p follow).map Spot.sketch := by
  rw [FileSystem.locate, FileSystem.locate]
  cases checkPath p with
  | error e => rfl
  | ok u => exact h.resolve p p.steps follow

/-- A path fails in the same way in both file systems, or leads to the same location, with nodes of
the same outline there. -/
theorem find_cases (h : fs.SameOutline fs') (p : Path) (follow : Bool) :
    (∃ e, fs.find p follow = .error e ∧ fs'.find p follow = .error e) ∨
    ∃ l node node', fs.find p follow = .ok (l, node) ∧ fs'.find p follow = .ok (l, node') ∧
      node'.outline = node.outline := by
  have hlocate := h.locate p follow
  unfold find
  cases hspot : fs.locate p follow with
  | error e =>
    cases hspot' : fs'.locate p follow with
    | error e' =>
      rw [hspot, hspot'] at hlocate
      cases hlocate
      exact .inl ⟨e, rfl, rfl⟩
    | ok spot' =>
      rw [hspot, hspot'] at hlocate
      cases hlocate
  | ok spot =>
    cases hspot' : fs'.locate p follow with
    | error e =>
      rw [hspot, hspot'] at hlocate
      cases hlocate
    | ok spot' =>
      rw [hspot, hspot'] at hlocate
      have hsketch := Except.ok.inj hlocate
      cases spot with
      | vacant directory name =>
        cases spot' with
        | vacant directory' name' => exact .inl ⟨_, rfl, rfl⟩
        | occupied place' => cases (Prod.mk.inj hsketch).2
      | occupied place =>
        cases spot' with
        | vacant directory' name' => cases (Prod.mk.inj hsketch).2
        | occupied place' =>
          obtain ⟨hlocation, hnode⟩ := Prod.mk.inj hsketch
          exact .inr ⟨place.location, place.node, place'.node, rfl, by rw [← hlocation]; rfl,
            Option.some.inj hnode⟩

/-- Sorted by their names, a directory's entries stand in the same order in both file systems. -/
theorem mergeSort_entriesOf {mode mode' : Nat} {nodes nodes' : List (Name × Node)}
    (h : fs.SameOutline fs') (hfind : fs.find p true = .ok (l, .directory mode nodes))
    (hfind' : fs'.find p true = .ok (l, .directory mode' nodes')) :
    (Rules.entriesOf nodes').mergeSort Rules.nameLe =
      (Rules.entriesOf nodes).mergeSort Rules.nameLe := by
  apply Rules.mergeSort_entriesOf_congr (Rules.nodup_names hfind) (Rules.nodup_names hfind')
  intro name
  have houtline := h.outline (l ++ [name])
  rw [get?_concat_of_directory (get?_of_find hfind),
    get?_concat_of_directory (get?_of_find hfind')] at houtline
  have hkind := congrArg (Option.map Node.kind) houtline
  simp only [Option.map_map, Function.comp_def, Node.kind_outline] at hkind
  exact hkind

end SameOutline

end FileSystem

namespace Rules

variable {r : Rules} {fs fs' : FileSystem} {paths : List Path} {v : Visit} {p : Path}

theorem listing_of_outline (h : fs.SameOutline fs') (hsorted : r.settings.sorted = true)
    (p : Path) : r.listing fs' p = r.listing fs p := by
  have hfail {fs : FileSystem} {e : IoError} (h : fs.list p = .error e) :
      r.listing fs p = [.error (p, e)] := by
    simp only [listing, h]
  rcases h.find_cases p true with ⟨e, hfind, hfind'⟩ | ⟨l, node, node', hfind, hfind', houtline⟩
  · have hlist {fs : FileSystem} (hfind : fs.find p true = .error e) : fs.list p = .error e := by
      rw [list, hfind]
      rfl
    rw [hfail (hlist hfind), hfail (hlist hfind')]
  · have hkind : node'.kind = node.kind := by
      rw [← Node.kind_outline, houtline, Node.kind_outline]
    by_cases hdir : node.kind = .directory
    · obtain ⟨mode, nodes, rfl⟩ := Node.exists_of_kind_directory hdir
      obtain ⟨mode', nodes', rfl⟩ := Node.exists_of_kind_directory (hkind.trans hdir)
      rw [listing_of_directory hsorted hfind, listing_of_directory hsorted hfind',
        h.mergeSort_entriesOf hfind hfind']
    · have hlist {fs : FileSystem} {node : Node} (hdir : node.kind ≠ .directory)
          (hfind : fs.find p true = .ok (l, node)) :
          fs.list p = .error (.system .notDirectory) := by
        rw [list, hfind]
        cases node with
        | directory mode nodes => exact absurd rfl hdir
        | _ => rfl
      rw [hfail (hlist hdir hfind), hfail (hlist (by rwa [hkind]) hfind')]

theorem openedAt_of_outline (h : fs.SameOutline fs') (p : Path) :
    openedAt fs' p = openedAt fs p := by
  unfold openedAt
  rcases h.find_cases p true with ⟨e, hfind, hfind'⟩ | ⟨l, node, node', hfind, hfind', -⟩
  · rw [hfind, hfind']
  · rw [hfind, hfind']
    rfl

theorem checkLoop_of_outline (h : fs.SameOutline fs') (child : Path) (here : Location)
    (paths : List Path) : checkLoop fs' child here paths = checkLoop fs child here paths := by
  induction paths with
  | nil => rfl
  | cons directory outer ih => rw [checkLoop, checkLoop, openedAt_of_outline h, ih]

theorem look_of_outline (h : fs.SameOutline fs') (r : Rules) (paths : List Path) (v : Visit) :
    r.look fs' paths v = r.look fs paths v := by
  unfold look follow
  rcases h.find_cases v.path true with
    ⟨e, hfind, hfind'⟩ | ⟨l, node, node', hfind, hfind', houtline⟩
  · rw [hfind, hfind']
  · have hkind : node'.kind = node.kind := by
      rw [← Node.kind_outline, houtline, Node.kind_outline]
    rw [hfind, hfind']
    simp only [hkind, checkLoop_of_outline h]

/-- A file that a path leads to has the same size in both file systems. -/
def SameSize (fs fs' : FileSystem) (p : Path) : Prop :=
  ∀ l data data', fs.find p true = .ok (l, .file data) → fs'.find p true = .ok (l, .file data') →
    data'.content.size = data.content.size

theorem leaf_of_outline (h : fs.SameOutline fs') (hsize : SameSize fs fs' v.path) :
    r.leaf fs' v = r.leaf fs v := by
  unfold leaf
  rcases h.find_cases v.path (v.followed || v.kind == .link) with
    ⟨e, hfind, hfind'⟩ | ⟨l, node, node', hfind, hfind', houtline⟩
  · rw [hfind, hfind']
  · have hkind : node'.kind = node.kind := by
      rw [← Node.kind_outline, houtline, Node.kind_outline]
    rw [hfind, hfind']
    cases node with
    | file data =>
      cases node' with
      | file data' =>
        have hfile {fs : FileSystem} {data : FileData}
            (hfind : fs.find v.path (v.followed || v.kind == .link) = .ok (l, .file data)) :
            fs.find v.path true = .ok (l, .file data) := by
          cases hflag : v.followed || v.kind == .link with
          | true => rwa [hflag] at hfind
          | false =>
            rw [hflag] at hfind
            exact find_true_of_ne_link hfind (by simp [Node.kind])
        simp only [hsize l data data' (hfile hfind) (hfile hfind')]
      | directory mode nodes => cases hkind
      | link target => cases hkind
      | pipe => cases hkind
    | directory mode nodes => cases node' <;> first | rfl | cases hkind
    | link target => cases node' <;> first | rfl | cases hkind
    | pipe => cases node' <;> first | rfl | cases hkind

/-- A listed node is taken up in the same way, if what it yields has the same size. -/
theorem visit_of_outline (h : fs.SameOutline fs')
    (hsize : r.keeps v.path = true → SameSize fs fs' v.path) :
    r.visit fs' paths v = r.visit fs paths v := by
  unfold visit
  rw [look_of_outline h]
  cases hlook : r.look fs paths v with
  | error f => rfl
  | ok v' =>
    have hpath := look_path hlook
    cases hkeeps : r.keeps v.path with
    | false => simp only [hpath, hkeeps, Bool.not_false, if_true]
    | true =>
      have hleaf : r.leaf fs' v' = r.leaf fs v' := leaf_of_outline h (hpath ▸ hsize hkeeps)
      simp only [hleaf]

theorem begin_of_outline (h : fs.SameOutline fs') : r.begin fs' = r.begin fs := by
  unfold begin
  simp only
  rcases h.find_cases r.settings.source false with
    ⟨e, hfind, hfind'⟩ | ⟨l, node, node', hfind, hfind', houtline⟩
  · rw [hfind, hfind']
  · have hkind : node'.kind = node.kind := by
      rw [← Node.kind_outline, houtline, Node.kind_outline]
    rw [hfind, hfind']
    simp only [hkind, look_of_outline h]
    rcases h.find_cases r.settings.source true with
      ⟨e, hfind, hfind'⟩ | ⟨l, node, node', hfind, hfind', houtline⟩
    · rw [hfind, hfind']
    · have hkind : node'.kind = node.kind := by
        rw [← Node.kind_outline, houtline, Node.kind_outline]
      rw [hfind, hfind']
      cases node <;> cases node' <;> first | rfl | cases hkind

end Rules

namespace Walk

variable {w w' : Walk} {fs fs' : FileSystem}

/-- The files that a walk may yield have the same sizes in both file systems. -/
def SameSizes (r : Rules) (fs fs' : FileSystem) : Prop :=
  ∀ names, names ≠ [] → (∀ n ∈ names, isLegalName n = true) →
    r.keeps (r.settings.source.below names) = true →
      Rules.SameSize fs fs' (r.settings.source.below names)

theorem step_of_outline (h : fs.SameOutline fs') (hsorted : w.rules.settings.sorted = true)
    (hsizes : SameSizes w.rules fs fs') (hw : w.BelowSource) : w.step fs' = w.step fs := by
  have hafter (w : Walk) (o : Rules.Outcome) (hsorted : w.rules.settings.sorted = true) :
      w.after fs' o = w.after fs o :=
    after_congr fun p _ => Rules.listing_of_outline h hsorted p
  obtain ⟨rules, fresh, stack⟩ := w
  cases fresh with
  | true =>
    have hbegin : after ⟨rules, false, stack⟩ fs' (rules.begin fs') =
        after ⟨rules, false, stack⟩ fs (rules.begin fs) := by
      rw [Rules.begin_of_outline h]
      exact hafter _ _ hsorted
    exact hbegin
  | false =>
    match stack, hw with
    | [], hw => rfl
    | ⟨directory, []⟩ :: outer, hw => rfl
    | ⟨directory, .error (p, e) :: pending⟩ :: outer, hw => rfl
    | ⟨directory, .ok v :: pending⟩ :: outer, hw =>
      obtain ⟨names, hne, hlegal, hpath⟩ := hw _ List.mem_cons_self v List.mem_cons_self
      have hvisit : rules.visit fs' (directory :: outer.map Frame.directory) v =
          rules.visit fs (directory :: outer.map Frame.directory) v := by
        apply Rules.visit_of_outline h
        rw [hpath]
        exact hsizes names hne hlegal
      have hnext : after ⟨rules, false, ⟨directory, pending⟩ :: outer⟩ fs'
          (rules.visit fs' (directory :: outer.map Frame.directory) v) =
            after ⟨rules, false, ⟨directory, pending⟩ :: outer⟩ fs
              (rules.visit fs (directory :: outer.map Frame.directory) v) := by
        rw [hvisit]
        exact hafter _ _ hsorted
      exact hnext

/-- A sorted walk goes the same way on both file systems. -/
theorem next_of_outline (h : fs.SameOutline fs') (hsorted : w.rules.settings.sorted = true)
    (hsizes : SameSizes w.rules fs fs') (hw : w.BelowSource) : w.next fs' = w.next fs := by
  induction hweight : w.weight fs using Nat.strongRecOn generalizing w with
  | ind weight ih =>
    subst hweight
    rw [next_step, next_step fs, step_of_outline h hsorted hsizes hw]
    cases hstep : w.step fs with
    | finished => rfl
    | yielded item w' => rfl
    | moved w' =>
      obtain ⟨hw', hrules⟩ := belowSource_step hw (by rw [hstep]; rfl)
      rw [← hrules] at hsorted hsizes
      exact ih _ (weight_step (by rw [hstep]; rfl)) hsorted hsizes hw' rfl

theorem items_of_outline (h : fs.SameOutline fs') (hsorted : w.rules.settings.sorted = true)
    (hsizes : SameSizes w.rules fs fs') (hw : w.BelowSource) : w.items fs' = w.items fs := by
  induction hweight : w.weight fs using Nat.strongRecOn generalizing w with
  | ind weight ih =>
    subst hweight
    have hnext := next_of_outline h hsorted hsizes hw
    cases hpull : w.next fs with
    | none => rw [items_of_next_eq_none hpull, items_of_next_eq_none (hnext.trans hpull)]
    | some pulled =>
      obtain ⟨item, w'⟩ := pulled
      obtain ⟨hw', hrules, -⟩ := sighted_of_next hw hpull
      rw [← hrules] at hsorted hsizes
      rw [items_of_next hpull, items_of_next (hnext.trans hpull),
        ih _ (weight_next hpull) hsorted hsizes hw' rfl]

end Walk

end TreeArchive
