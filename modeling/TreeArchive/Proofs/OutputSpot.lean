import TreeArchive.Proofs.Glance
import TreeArchive.Proofs.RunFrame

/-!
The location that a run writes to. Whatever stands there, the output path leads to it, and other
paths come by it only if a link stands there that points to a directory.
-/
namespace TreeArchive

open FileSystem

theorem Node.similar_of_shell {node node' : Node} (h : node'.shell = node.shell) :
    node.Similar node' := by
  constructor
  · rw [← Node.kind_shell, h, Node.kind_shell]
  · rintro target rfl
    cases node' <;> cases h
    rfl

theorem Node.Similar.trans {node node' node'' : Node} (h : node.Similar node')
    (h' : node'.Similar node'') : node.Similar node'' :=
  ⟨h'.1.trans h.1, fun target htarget => h'.2 target (h.2 target htarget)⟩

namespace FileSystem

variable {fs fs' : FileSystem} {here here' directory : Place} {l : Location} {name : Name}
  {p : Path}

theorem SameElsewhere.symm (h : fs.SameElsewhere fs' l) : fs'.SameElsewhere fs l :=
  ⟨h.workingDirectory.symm, fun other hother => (h.shell other hother).symm⟩

theorem Across.symm (h : Across fs fs' l here here') : Across fs' fs l here' here where
  placed := h.placed'
  placed' := h.placed
  location := h.location.symm
  outside := by rw [h.location]; exact h.outside

/-- Steps that lead to the location while nothing stands there lead to whatever else may. -/
theorem Across.walk_restored (h : Across fs fs' l here here') (hwithout : fs'.Without fs l)
    {budget : Nat} {steps : List Name}
    (hwalk : fs.walk false budget here steps = .ok (.vacant directory name))
    (hl : directory.location ++ [name] = l) :
    ∃ spot, fs'.walk false budget here' steps = .ok spot ∧ spot.location = l := by
  have hsame := hwithout.same.symm
  have hplaced {there : Place} (hthere : fs.Placed there) : ¬l <+: there.location :=
    hwithout.outside hthere.get?_location
  -- what is not at the location is the same in both, so only the last step may find something else
  induction budget, here, steps using fs.walk_induct generalizing here' with
  | done budget here =>
    rw [walk] at hwalk
    cases hwalk
  | dot budget here rest hdir ih =>
    rw [walk_dot hdir] at hwalk
    rw [walk_dot ((h.kind_iff hsame).2 hdir)]
    exact ih h hwalk
  | dotDot budget here rest hdir ih =>
    rw [walk_dotDot hdir] at hwalk
    rw [walk_dotDot ((h.kind_iff hsame).2 hdir)]
    exact ih h.parent hwalk
  | long budget here step rest hdir hdot hdotDot hlong =>
    rw [walk_long hdir hdot hdotDot hlong] at hwalk
    cases hwalk
  | missing budget here step rest hdir hstep hchild =>
    rw [walk_missing hdir hstep hchild] at hwalk
    cases rest with
    | cons next rest => cases hwalk
    | nil =>
      cases hwalk
      rw [walk_last ((h.kind_iff hsame).2 hdir) hstep]
      rw [← h.location] at hl
      cases hchild' : here'.child? name with
      | none => exact ⟨_, rfl, hl⟩
      | some there => exact ⟨_, rfl, (Place.location_of_child? hchild').trans hl⟩
  | link budget here step rest there target hdir hstep hchild hlink ih =>
    have hthere := hplaced (h.placed.child hchild)
    obtain ⟨there', hchild', hlink', -⟩ := h.child_link hsame hchild hthere hlink
    rw [walk_link hdir hstep hchild hlink] at hwalk
    rw [walk_link ((h.kind_iff hsame).2 hdir) hstep hchild' hlink']
    cases hlast : rest.isEmpty && !false with
    | true =>
      rw [hlast] at hwalk
      cases hwalk
    | false =>
      rw [hlast] at hwalk
      cases budget with
      | zero => cases hwalk
      | succ left =>
        by_cases habsolute : target.isAbsolute = true
        · simp only [habsolute, if_true] at ih hwalk ⊢
          exact ih left rfl (.root hwithout.ne_nil) hwalk
        · simp only [habsolute, if_false, Bool.false_eq_true] at ih hwalk ⊢
          exact ih left rfl h hwalk
  | node budget here step rest there hdir hstep hchild hlink ih =>
    have hthere := hplaced (h.placed.child hchild)
    obtain ⟨there', hchild', hlink', hnext⟩ := h.child_node hsame hchild hthere hlink
    rw [walk_node hdir hstep hchild hlink] at hwalk
    rw [walk_node ((h.kind_iff hsame).2 hdir) hstep hchild' hlink']
    exact ih hnext hwalk
  | blocked budget here step rest hblocked =>
    rw [walk_not_directory hblocked] at hwalk
    cases hwalk

/-- A path to a free name leads there also in a file system that has a node under it. -/
theorem Without.locate_restored (h : fs'.Without fs l)
    (hlocate : fs.locate p false = .ok (.vacant directory name))
    (hl : directory.location ++ [name] = l) :
    ∃ spot, fs'.locate p false = .ok spot ∧ spot.location = l := by
  obtain ⟨hcheck, here, hstart, hwalk⟩ := locate_eq_ok.1 hlocate
  have hfrom := h.outside (placed_of_start hstart).get?_location
  rw [location_of_start hstart, h.same.workingDirectory] at hfrom
  rcases h.nothingAdded.start_cases hfrom with
    ⟨here', found, hstart', hfound, hacross⟩ | ⟨-, hnone⟩
  · obtain rfl := Except.ok.inj (hstart.symm.trans hfound)
    obtain ⟨spot, hwalk', hspot⟩ := hacross.symm.walk_restored h hwalk hl
    exact ⟨spot, locate_eq_ok.2 ⟨hcheck, here', hstart', hwalk'⟩, hspot⟩
  · rw [hstart] at hnone
    cases hnone

/-- A path leads to the same location in an extended file system, and to a node of the same kind. -/
theorem Extends.find (hext : fs.Extends fs') {follow : Bool} {node : Node}
    (hfind : fs.find p follow = .ok (l, node)) :
    ∃ node', fs'.find p follow = .ok (l, node') ∧ node.Similar node' := by
  obtain ⟨place, hlocate, hl, rfl⟩ := find_eq_ok.1 hfind
  obtain ⟨place', hlocate', hl', hplaced⟩ := hext.locate hlocate (by rintro _ _ ⟨⟩)
  exact ⟨place'.node, find_eq_ok.2 ⟨place', hlocate', hl'.trans hl, rfl⟩,
    hext.similar (placed_of_locate hlocate) hplaced hl'⟩

/-- A link stands at a location, and its target leads to a directory from there, however few links
are followed on the way. -/
def PointsToDirectory (fs : FileSystem) (l : Location) : Prop :=
  ∃ outer name target budget place, fs.Placed outer ∧ outer.location ++ [name] = l ∧
    fs.get? l = some (.link target) ∧
    fs.walk true budget (if target.isAbsolute then fs.rootPlace else outer) target.steps =
      .ok (.occupied place) ∧
    place.node.kind = .directory

/-- The way to a directory comes by no node but directories and links that point to some. -/
theorem avoids_of_directory {there : Location} {node : Node}
    (hfind : fs.find p true = .ok (there, node)) (hdir : node.kind = .directory)
    (hkind : ∀ node, fs.get? l = some node → node.kind ≠ .directory)
    (hpoints : ¬fs.PointsToDirectory l) : fs.Avoids p l := by
  obtain ⟨hcheck, here, place, hstart, hwalk, -, rfl⟩ := find_walk hfind
  have hhere := placed_of_start hstart
  have hself {other : Location} {inner : Node} (hinner : fs.get? other = some inner)
      (hinit : l <+: other) : other = l := by
    by_contra hne
    rw [get?_eq_none_below hkind hinit hne] at hinner
    cases hinner
  have hdot : fs.walk true maxLinks here (p.steps ++ [Path.dotName]) = .ok (.occupied place) := by
    rcases fs.walk_append maxLinks here p.steps with ⟨last, left, -, hlast, hmore⟩ | ⟨hnone, -⟩
    · obtain rfl := Spot.occupied.inj (Except.ok.inj (hwalk.symm.trans hlast))
      rw [hmore true _ (by simp), walk_dot hdir, walk]
    · exact absurd hwalk (hnone place)
  rw [Avoids, way, List.forall_mem_cons, hstart]
  constructor
  · rw [← location_of_start hstart]
    intro hinit
    -- steps from what is no directory lead nowhere
    have hblocked := hkind _ (hself hhere.get?_location hinit ▸ hhere.get?_location)
    obtain ⟨step, rest, hsteps⟩ := List.exists_cons_of_ne_nil (l := p.steps ++ [Path.dotName])
      (by simp)
    rw [hsteps, walk_not_directory hblocked] at hdot
    cases hdot
  · intro stop hstop hinit
    obtain ⟨inner, hinner⟩ := exists_of_mem_stops hhere hstop
    obtain rfl := hself hinner hinit
    obtain ⟨target, outer, name, left, rest, rfl, houter, hl, hgo⟩ :=
      exists_link_of_mem_stops hhere hinner (hkind inner hinner) hstop (by simp) hdot
    apply hpoints
    rw [hgo true _ (by simp)] at hdot
    rcases fs.walk_append left (if target.isAbsolute then fs.rootPlace else outer) target.steps with
      ⟨last, budget, -, hlast, hmore⟩ | ⟨-, hnone⟩
    · refine ⟨outer, name, target, left, last, houter, hl, hinner, hlast, ?_⟩
      by_contra hblocked
      obtain ⟨step, steps, hsteps⟩ := List.exists_cons_of_ne_nil
        (l := rest ++ [Path.dotName]) (by simp)
      rw [hmore true _ (by simp), hsteps, walk_not_directory hblocked] at hdot
      cases hdot
    · exact absurd hdot (hnone true _ _ (by simp))

end FileSystem

namespace Pack

variable {s : Settings} {fs fs' fs₀ fs₁ : FileSystem} {replaced : Bool} {handle : Handle}
  {output : Path}

/-- The file system without the output, from which it is created. -/
theorem Created.without (h : Created fs output fs₀ replaced fs₁ handle) :
    fs.Without fs₀ handle.location := by
  have hnew := createNew_of_createOutput h.create
  obtain ⟨-, -, -, -, -, hnone, -⟩ := createNew_eq_ok hnew
  exact ⟨h.same.trans (sameElsewhere_createNew hnew).symm, hnone⟩

/-- What a path leads to, if it does not come by the output, it leads to when the output has been
created. -/
theorem Created.find_of_avoids (h : Created fs output fs₀ replaced fs₁ handle) {p : Path}
    {follow : Bool} {there : Location} {node : Node} (havoids : fs.Avoids p handle.location)
    (hfind : fs.find p follow = .ok (there, node)) :
    ∃ node', fs₁.find p follow = .ok (there, node') ∧ node.Similar node' := by
  obtain ⟨-, -, -, -, hext, -⟩ := createNew_eq_ok (createNew_of_createOutput h.create)
  rcases find_of_glance_eq (h.without.glance_eq havoids follow) with ⟨e, hnone, -⟩ |
    ⟨l, found, node₀, hfound, hfind₀, hshell⟩
  · cases hfind.symm.trans hnone
  · obtain ⟨rfl, rfl⟩ := Prod.mk.inj (Except.ok.inj (hfind.symm.trans hfound))
    obtain ⟨node₁, hfind₁, hsimilar⟩ := hext.find hfind₀
    exact ⟨node₁, hfind₁, (Node.similar_of_shell hshell).trans hsimilar⟩

/-- A path that leads to a directory, and does not come by the output, leads there also when the
output has been created. -/
theorem Created.find_directory (h : Created fs output fs₀ replaced fs₁ handle) {p : Path}
    {there : Location} {node : Node} (hfind : fs.find p true = .ok (there, node))
    (hdir : node.kind = .directory) (havoids : fs.Avoids p handle.location) :
    ∃ node', fs₁.find p true = .ok (there, node') ∧ node'.kind = .directory := by
  obtain ⟨node₁, hfind₁, hkind, -⟩ := h.find_of_avoids havoids hfind
  exact ⟨node₁, hfind₁, hkind.trans hdir⟩

end Pack

end TreeArchive
