import TreeArchive.Proofs.Way

/-!
The path of a node that has been taken away. It leads to the name that is free now, unless the node
was a link that the path itself came by before its end.
-/
namespace TreeArchive

namespace FileSystem

variable {fs : FileSystem} {here here' place : Place} {l : Location} {node : Node}

theorem Placed.kind_parent (h : fs.Placed here) : here.parent.node.kind = .directory := by
  cases h with
  | root => exact fs.rooted
  | @child outer _ name _ hchild =>
    obtain ⟨inner, hinner, -⟩ := Place.child?_eq_some.1 hchild
    obtain ⟨mode, entries, hdir⟩ := Node.exists_of_child? hinner
    rw [Place.parent_of_child? hchild, hdir]
    rfl

/-- A place in the tree is known by its location. -/
theorem Placed.eq_of_location (h : fs.Placed here) (h' : fs.Placed here')
    (hlocation : here.location = here'.location) : here = here' := by
  induction h generalizing here' with
  | root =>
    cases h' with
    | root => rfl
    | child outer hchild =>
      rw [Place.location_of_child? hchild] at hlocation
      simp [rootPlace, Place.location] at hlocation
  | @child place there name outer hchild ih =>
    cases h' with
    | root =>
      rw [Place.location_of_child? hchild] at hlocation
      simp [rootPlace, Place.location] at hlocation
    | @child place' _ name' outer' hchild' =>
      rw [Place.location_of_child? hchild, Place.location_of_child? hchild'] at hlocation
      -- the last names are the same, and so are the places that they stand in
      obtain ⟨hplace, hname⟩ := List.append_inj' hlocation rfl
      obtain rfl := ih outer' hplace
      obtain rfl : name = name' := by simpa using hname
      exact Option.some.inj (hchild.symm.trans hchild')

theorem exists_of_mem_stops {budget : Nat} {steps : List Name} {stop : Location}
    (h : fs.Placed here) (hstop : stop ∈ fs.stops budget here steps) :
    ∃ inner, fs.get? stop = some inner := by
  induction budget, here, steps using fs.walk_induct with
  | done budget here =>
    rw [stops] at hstop
    cases hstop
  | dot budget here rest hdir ih =>
    rw [stops_dot hdir] at hstop
    exact ih h hstop
  | dotDot budget here rest hdir ih =>
    rw [stops_dotDot hdir] at hstop
    exact ih h.parent hstop
  | long budget here step rest hdir hdot hdotDot hlong =>
    rw [stops_long hdir hdot hdotDot hlong] at hstop
    cases hstop
  | missing budget here step rest hdir hstep hchild =>
    rw [stops_missing hdir hstep hchild] at hstop
    cases hstop
  | link budget here step rest there target hdir hstep hchild hlink ih =>
    rw [stops_link hdir hstep hchild hlink] at hstop
    rcases List.mem_cons.1 hstop with rfl | hstop
    · exact ⟨_, (h.child hchild).get?_location⟩
    · cases budget with
      | zero => cases hstop
      | succ left =>
        by_cases habsolute : target.isAbsolute = true
        · simp only [habsolute, if_true] at ih hstop
          exact ih left rfl .root hstop
        · simp only [habsolute, if_false, Bool.false_eq_true] at ih hstop
          exact ih left rfl h hstop
  | node budget here step rest there hdir hstep hchild hlink ih =>
    rw [stops_node hdir hstep hchild hlink] at hstop
    rcases List.mem_cons.1 hstop with rfl | hstop
    · exact ⟨_, (h.child hchild).get?_location⟩
    · exact ih (h.child hchild) hstop
  | blocked budget here step rest hblocked =>
    rw [stops_not_directory hblocked] at hstop
    cases hstop

/-- Steps that come by a node that is no directory, and go on from there, go on through a link. -/
theorem exists_link_of_mem_stops {budget : Nat} {steps more : List Name} {follow : Bool}
    {spot : Spot} (h : fs.Placed here) (hget : fs.get? l = some node)
    (hkind : node.kind ≠ .directory) (hstop : l ∈ fs.stops budget here steps) (hmore : more ≠ [])
    (hwalk : fs.walk follow budget here (steps ++ more) = .ok spot) :
    ∃ target directory name left rest, node = .link target ∧ fs.Placed directory ∧
      directory.location ++ [name] = l ∧ ∀ follow more, more ≠ [] →
        fs.walk follow budget here (steps ++ more) =
          fs.walk follow left (if target.isAbsolute then fs.rootPlace else directory)
            (target.steps ++ (rest ++ more)) := by
  induction budget, here, steps using fs.walk_induct with
  | done budget here =>
    rw [stops] at hstop
    cases hstop
  | dot budget here rest hdir ih =>
    rw [stops_dot hdir] at hstop
    simp only [List.cons_append, walk_dot hdir] at hwalk ⊢
    exact ih h hstop hwalk
  | dotDot budget here rest hdir ih =>
    rw [stops_dotDot hdir] at hstop
    simp only [List.cons_append, walk_dotDot hdir] at hwalk ⊢
    exact ih h.parent hstop hwalk
  | long budget here step rest hdir hdot hdotDot hlong =>
    rw [stops_long hdir hdot hdotDot hlong] at hstop
    cases hstop
  | missing budget here step rest hdir hstep hchild =>
    rw [stops_missing hdir hstep hchild] at hstop
    cases hstop
  | link budget here step rest there target hdir hstep hchild hlink ih =>
    have hthere := Place.location_of_child? hchild
    have hpass (left : Nat) (follow : Bool) (more : List Name) (hmore : more ≠ []) :
        fs.walk follow (left + 1) here (step :: rest ++ more) =
          fs.walk follow left (if target.isAbsolute then fs.rootPlace else here)
            (target.steps ++ rest ++ more) := by
      rw [List.cons_append, walk_link hdir hstep hchild hlink, if_neg (by simp [hmore]),
        List.append_assoc]
    cases budget with
    | zero =>
      rw [List.cons_append, walk_link hdir hstep hchild hlink, if_neg (by simp [hmore])] at hwalk
      cases hwalk
    | succ left =>
      rw [stops_link hdir hstep hchild hlink] at hstop
      rcases List.mem_cons.1 hstop with rfl | hstop
      · -- this is the link itself
        rw [(h.child hchild).get?_location, hlink] at hget
        cases hget
        refine ⟨target, here, step, left, rest, rfl, h, hthere.symm, ?_⟩
        intro follow more hmore
        rw [hpass left follow more hmore, List.append_assoc]
      · have hstart : fs.Placed (if target.isAbsolute then fs.rootPlace else here) := by
          split
          · exact .root
          · exact h
        rw [hpass left follow more hmore] at hwalk
        obtain ⟨target', directory, name, last, rest', hnode, hplaced, hl, hgo⟩ :=
          ih left rfl hstart hstop hwalk
        refine ⟨target', directory, name, last, rest', hnode, hplaced, hl, ?_⟩
        intro follow more hmore
        rw [hpass left follow more hmore]
        exact hgo follow more hmore
  | node budget here step rest there hdir hstep hchild hlink ih =>
    simp only [List.cons_append, walk_node hdir hstep hchild hlink] at hwalk ⊢
    rw [stops_node hdir hstep hchild hlink] at hstop
    rcases List.mem_cons.1 hstop with rfl | hstop
    · -- nothing goes on from a file
      rw [(h.child hchild).get?_location] at hget
      cases hget
      obtain ⟨step', more', hsteps⟩ := List.exists_cons_of_ne_nil
        (List.append_ne_nil_of_right_ne_nil rest hmore)
      rw [hsteps, walk_not_directory hkind] at hwalk
      cases hwalk
    · exact ih (h.child hchild) hstop hwalk
  | blocked budget here step rest hblocked =>
    rw [stops_not_directory hblocked] at hstop
    cases hstop

/-- With fewer links left to follow, steps lead to the same spot or there are too many links. -/
theorem walk_of_le {budget left : Nat} {steps : List Name} {follow : Bool} {spot : Spot}
    (hwalk : fs.walk follow budget here steps = .ok spot) (hle : left ≤ budget) :
    fs.walk follow left here steps = .ok spot ∨
      fs.walk follow left here steps = .error .tooManyLinks := by
  induction budget, here, steps using fs.walk_induct generalizing left with
  | done budget here =>
    left
    rw [walk] at hwalk ⊢
    exact hwalk
  | dot budget here rest hdir ih =>
    rw [walk_dot hdir] at hwalk ⊢
    exact ih hwalk hle
  | dotDot budget here rest hdir ih =>
    rw [walk_dotDot hdir] at hwalk ⊢
    exact ih hwalk hle
  | long budget here step rest hdir hdot hdotDot hlong =>
    rw [walk_long hdir hdot hdotDot hlong] at hwalk
    cases hwalk
  | missing budget here step rest hdir hstep hchild =>
    left
    rw [walk_missing hdir hstep hchild] at hwalk ⊢
    exact hwalk
  | link budget here step rest there target hdir hstep hchild hlink ih =>
    rw [walk_link hdir hstep hchild hlink] at hwalk ⊢
    cases hlast : rest.isEmpty && !follow with
    | true =>
      left
      rw [hlast] at hwalk
      exact hwalk
    | false =>
      rw [hlast] at hwalk
      -- only a link that is followed takes one from what is left
      cases left with
      | zero => exact .inr rfl
      | succ left =>
        cases budget with
        | zero => cases hwalk
        | succ budget => exact ih budget rfl hwalk (Nat.le_of_succ_le_succ hle)
  | node budget here step rest there hdir hstep hchild hlink ih =>
    rw [walk_node hdir hstep hchild hlink] at hwalk ⊢
    exact ih hwalk hle
  | blocked budget here step rest hblocked =>
    rw [walk_not_directory hblocked] at hwalk
    cases hwalk

/-- The last step to what is no directory is a step from a directory by a name. -/
theorem last_of_walk {budget : Nat} {init : List Name} {name : Name} (h : fs.Placed here)
    (hwalk : fs.walk false budget here (init ++ [name]) = .ok (.occupied place))
    (hkind : place.node.kind ≠ .directory) :
    ∃ directory left, left ≤ budget ∧ fs.Placed directory ∧ directory.node.kind = .directory ∧
      Named name ∧ directory.child? name = some place ∧
      fs.walk true budget here init = .ok (.occupied directory) ∧
      ∀ follow more, more ≠ [] →
        fs.walk follow budget here (init ++ more) = fs.walk follow left directory more := by
  rcases fs.walk_append budget here init with ⟨directory, left, hle, hinit, hmore⟩ | ⟨-, hmore⟩
  · rw [hmore false [name] (by simp)] at hwalk
    have hplaced : fs.Placed directory := h.walk hinit
    by_cases hdir : directory.node.kind = .directory
    · have hdot : name ≠ Path.dotName := by
        rintro rfl
        rw [walk_dot hdir, walk] at hwalk
        cases hwalk
        exact hkind hdir
      have hdotDot : name ≠ Path.dotDotName := by
        rintro rfl
        rw [walk_dotDot hdir, walk] at hwalk
        cases hwalk
        exact hkind hplaced.kind_parent
      have hlength : name.length ≤ maxName := by
        by_contra hlong
        rw [walk_long hdir hdot hdotDot (Nat.lt_of_not_le hlong)] at hwalk
        cases hwalk
      have hnamed : Named name := ⟨hdot, hdotDot, hlength⟩
      rw [walk_last hdir hnamed] at hwalk
      cases hchild : directory.child? name with
      | none =>
        rw [hchild] at hwalk
        cases hwalk
      | some there =>
        rw [hchild] at hwalk
        cases hwalk
        exact ⟨directory, left, hle, hplaced, hdir, hnamed, hchild, hinit, hmore⟩
    · rw [walk_not_directory hdir] at hwalk
      cases hwalk
  · exact absurd hwalk (hmore false [name] _ (by simp))

/-- If the way to a node does not come by the node, the same steps lead to its name once it is gone.
-/
theorem Across.walk_cleared {fs' : FileSystem} {budget : Nat} {init : List Name} {name : Name}
    (h : Across fs fs' place.location here here') (hwithout : fs.Without fs' place.location)
    (hwalk : fs.walk false budget here (init ++ [name]) = .ok (.occupied place))
    (hkind : place.node.kind ≠ .directory)
    (havoids : ∀ stop ∈ fs.stops budget here init, ¬place.location <+: stop) :
    ∃ directory, fs'.walk false budget here' (init ++ [name]) = .ok (.vacant directory name) ∧
      directory.node.kind = .directory ∧ directory.location ++ [name] = place.location := by
  obtain ⟨directory, left, -, hplaced, hdir, hnamed, hchild, hinit, -⟩ :=
    last_of_walk h.placed hwalk hkind
  have hview := h.view_walk hwithout.nothingAdded havoids true
  rw [hinit] at hview
  cases hinit' : fs'.walk true budget here' init with
  | error e =>
    rw [hinit'] at hview
    cases hview
  | ok spot =>
    rw [hinit'] at hview
    cases spot with
    | vacant other name' => simp [Except.map, Spot.view] at hview
    | occupied directory' =>
      simp only [Except.map, Spot.view, Except.ok.injEq, Prod.mk.injEq, Option.some.injEq] at hview
      obtain ⟨hlocation, hshell⟩ := hview
      have hdir' : directory'.node.kind = .directory := by
        rw [← Node.kind_shell, hshell, Node.kind_shell, hdir]
      have hl : directory'.location ++ [name] = place.location := by
        rw [hlocation, Place.location_of_child? hchild]
      have hgone : directory'.child? name = none := by
        have hget := get?_child (h.placed'.walk hinit') name
        rw [Spot.place, hl, hwithout.gone] at hget
        exact Option.map_eq_none_iff.1 hget.symm
      refine ⟨directory', ?_, hdir', hl⟩
      rcases fs'.walk_append budget here' init with ⟨there, left', -, hthere, hmore⟩ | ⟨hnone, -⟩
      · rw [hinit'] at hthere
        cases hthere
        rw [hmore false [name] (by simp), walk_last hdir' hnamed, hgone]
      · exact absurd hinit' (hnone _)

/-- If the way to a node comes by the node, this is a link to a directory, or one that cannot be
followed once more. -/
theorem walk_through_self {budget : Nat} {init : List Name} {name : Name} (h : fs.Placed here)
    (hwalk : fs.walk false budget here (init ++ [name]) = .ok (.occupied place))
    (hkind : place.node.kind ≠ .directory) (hstop : place.location ∈ fs.stops budget here init) :
    ∃ target, place.node = .link target ∧
      (fs.walk true budget here (init ++ [name]) = .error .tooManyLinks ∨
        ∃ there, fs.walk true budget here (init ++ [name]) = .ok (.occupied there) ∧
          there.node.kind = .directory) := by
  have hplace : fs.Placed place := h.walk hwalk
  obtain ⟨target, directory, name', left, rest, hnode, hdirectory, hl, hgo⟩ :=
    exists_link_of_mem_stops h hplace.get?_location hkind hstop (by simp) hwalk
  rw [hgo false [name] (by simp), ← List.append_assoc] at hwalk
  have hstart : fs.Placed (if target.isAbsolute then fs.rootPlace else directory) := by
    split
    · exact .root
    · exact hdirectory
  obtain ⟨last, few, hfew, hlast, hdir, hnamed, hchild, -, hmore⟩ :=
    last_of_walk hstart hwalk hkind
  -- the last step is taken from the directory in which the link has been met before
  have hnames := hl.trans (Place.location_of_child? hchild)
  obtain ⟨hsame, -⟩ := List.append_inj' hnames rfl
  obtain rfl := hdirectory.eq_of_location hlast hsame
  refine ⟨target, hnode, ?_⟩
  rw [hgo true [name] (by simp), ← List.append_assoc, hmore true [name] (by simp),
    walk_link hdir hnamed hchild hnode]
  cases few with
  | zero => exact .inl rfl
  | succ few =>
    simp only [List.isEmpty_nil, Bool.not_true, Bool.and_false, List.append_nil, if_false,
      Bool.false_eq_true]
    -- followed before, with more links left than now, it led to a directory
    rcases fs.walk_append left (if target.isAbsolute then fs.rootPlace else directory) target.steps
      with ⟨there, left', -, hthere, hmore'⟩ | ⟨-, hnone⟩
    · have hdir' : there.node.kind = .directory := by
        by_contra hblocked
        rw [List.append_assoc, hmore' false (rest ++ [name]) (by simp)] at hwalk
        obtain ⟨step, steps, hsteps⟩ := List.exists_cons_of_ne_nil (l := rest ++ [name]) (by simp)
        rw [hsteps, walk_not_directory hblocked] at hwalk
        cases hwalk
      rcases walk_of_le hthere (Nat.le_of_succ_le hfew) with hok | hmany
      · exact .inr ⟨there, hok, hdir'⟩
      · exact .inl hmany
    · rw [List.append_assoc] at hwalk
      exact absurd hwalk (hnone false (rest ++ [name]) _ (by simp))

end FileSystem

/-- A path whose steps lead nowhere further starts at the root. -/
theorem Path.isAbsolute_of_steps_eq_nil {p : Path} (h : p.steps = []) (hne : p.bytes ≠ []) :
    p.isAbsolute = true := by
  obtain ⟨b, rest, hbytes⟩ := List.exists_cons_of_ne_nil hne
  have hnames : p.stepNames = [] := by
    rcases p.steps_eq with hsteps | hsteps
    · rwa [hsteps] at h
    · simp [hsteps] at h
  by_contra hrelative
  have hb : (b == slash) = false := by simpa [isAbsolute, hbytes] using hrelative
  cases hpieces : Text.pieces (· == slash) rest with
  | nil => exact Text.pieces_ne_nil _ _ hpieces
  | cons piece others => simp [stepNames, segments, hbytes, Text.pieces, hb, hpieces] at hnames

namespace FileSystem

variable {fs : FileSystem} {l : Location} {node : Node} {p : Path}

theorem legal_of_get? (h : fs.get? l = some node) : l.all isLegalName = true := by
  have hall (l : Location) (root : Node) (hroot : root.WellFormed) (h : root.get? l = some node) :
      l.all isLegalName = true := by
    induction l generalizing root with
    | nil => rfl
    | cons name rest ih =>
      rw [Node.get?] at h
      obtain ⟨child, hchild, hrest⟩ := Option.bind_eq_some_iff.1 h
      obtain ⟨mode, entries, rfl⟩ := Node.exists_of_child? hchild
      cases hroot with
      | directory distinct legal inner =>
        have hmem := Node.mem_of_lookup hchild
        rw [List.all_cons, Bool.and_eq_true]
        exact ⟨legal _ (List.mem_map_of_mem hmem), ih child (inner _ _ hmem) hrest⟩
  exact hall l fs.root fs.wellFormed h

theorem find_walk {follow : Bool} (h : fs.find p follow = .ok (l, node)) :
    checkPath p = .ok () ∧ ∃ here place, fs.start p = .ok here ∧
      fs.walk follow maxLinks here p.steps = .ok (.occupied place) ∧ place.location = l ∧
      place.node = node := by
  obtain ⟨place, hlocate, hl, hnode⟩ := find_eq_ok.1 h
  obtain ⟨hcheck, here, hstart, hwalk⟩ := locate_eq_ok.1 hlocate
  exact ⟨hcheck, here, place, hstart, hwalk, hl, hnode⟩

/-- A path to what is no directory does not ask for one. -/
theorem asksDirectory_of_find (h : fs.find p false = .ok (l, node))
    (hkind : node.kind ≠ .directory) : asksDirectory p = false := by
  obtain ⟨-, here, place, hstart, hwalk, rfl, rfl⟩ := find_walk h
  by_contra hasks
  simp only [asksDirectory, Bool.not_eq_false, Bool.and_eq_true] at hasks
  have hsteps : p.steps = p.stepNames ++ [Path.dotName] := by
    have hnames : p.stepNames.isEmpty = false := by
      cases hnames : p.stepNames with
      | nil =>
        have hnone : (p.segments.filter (!·.isEmpty)).getLast? = none := by
          rw [show p.segments.filter (!·.isEmpty) = [] from hnames]
          rfl
        simp [hnone] at hasks
      | cons name rest => rfl
    have hguard : (p.bytes.getLast? == some Path.slash && !p.stepNames.isEmpty) = true := by
      rw [hasks.1, hnames]
      rfl
    exact if_pos hguard
  rw [hsteps] at hwalk
  obtain ⟨-, -, -, -, -, hnamed, -⟩ := last_of_walk (placed_of_start hstart) hwalk hkind
  exact hnamed.ne_dot rfl

theorem createNew_of_vacant {directory : Place} {name : Name} (hasks : asksDirectory p = false)
    (h : fs.locate p false = .ok (.vacant directory name))
    (hdir : directory.node.kind = .directory)
    (hlegal : (directory.location ++ [name]).all isLegalName = true)
    (hfree : fs.get? (directory.location ++ [name]) = none) :
    ∃ fs' handle, fs.createNew p = .ok (fs', handle) ∧
      handle.location = directory.location ++ [name] := by
  have hinside : fs.isDirectory (directory.location ++ [name]).dropLast = true := by
    have hplaced : fs.Placed directory := placed_of_locate h
    rw [List.dropLast_concat, isDirectory, hplaced.get?_location]
    simp [hdir]
  obtain ⟨grown, hinsert⟩ : ∃ grown, fs.insert? (directory.location ++ [name])
      (.file ⟨fs.nextId, 0o644, .empty, none⟩) = some grown := by
    unfold insert?
    rw [dif_pos ⟨by simp, hlegal, rfl, by rw [hfree]; rfl, hinside⟩]
    exact ⟨_, rfl⟩
  refine ⟨{ grown with nextId := grown.nextId + 1 }, ⟨directory.location ++ [name], fs.nextId⟩,
    ?_, rfl⟩
  simp [createNew, hasks, h, addFile, hinsert, bind, Except.bind]

/-- A path to what is no directory has a last step, and does not start at its end. -/
theorem exists_last_step (h : fs.find p false = .ok (l, node)) (hkind : node.kind ≠ .directory) :
    ∃ here place init name, fs.start p = .ok here ∧ p.steps = init ++ [name] ∧
      fs.walk false maxLinks here (init ++ [name]) = .ok (.occupied place) ∧ place.location = l ∧
      place.node = node ∧ ¬l <+: here.location := by
  obtain ⟨hcheck, here, place, hstart, hwalk, rfl, rfl⟩ := find_walk h
  have hhere := placed_of_start hstart
  rcases List.eq_nil_or_concat' p.steps with hsteps | ⟨init, name, hsteps⟩
  · -- a path without steps leads to the root
    have hbytes := List.isEmpty_eq_false_iff.1 (checkPath_eq_ok.1 hcheck).2.1
    have habsolute := Path.isAbsolute_of_steps_eq_nil hsteps hbytes
    have hroot : fs.start p = .ok fs.rootPlace := by simp [start, habsolute]
    rw [hroot] at hstart
    rw [hsteps, walk] at hwalk
    cases hstart
    cases hwalk
    exact absurd fs.rooted hkind
  · rw [hsteps] at hwalk
    refine ⟨here, place, init, name, hstart, hsteps, hwalk, rfl, rfl, ?_⟩
    intro hinit
    have hself := eq_of_prefix_of_get? (get?_of_find h) hkind hinit hhere.get?_location
    obtain rfl := hhere.eq_of_location (hhere.walk hwalk) hself
    obtain ⟨step, steps, heq⟩ := List.exists_cons_of_ne_nil (l := init ++ [name]) (by simp)
    rw [heq, walk_not_directory hkind] at hwalk
    cases hwalk

/-- Where a node that is no directory has been taken away, a file can be created by its path; if
not, the node was a link that the path came by before its end, and there are too many links on the
way or it led to a directory. -/
theorem createNew_erase_cases (h : fs.find p false = .ok (l, node))
    (hkind : node.kind ≠ .directory) :
    (∃ fs' handle, (fs.erase l).createNew p = .ok (fs', handle) ∧ handle.location = l) ∨
    ((fs.erase l).createNew p = .error (.system .noEntry) ∧ ∃ target, node = .link target ∧
      (fs.find p true = .error (.system .tooManyLinks) ∨
        ∃ l' mode nodes, fs.find p true = .ok (l', .directory mode nodes))) := by
  have hasks := asksDirectory_of_find h hkind
  have hget := get?_of_find h
  have hcheck := (find_walk h).1
  obtain ⟨here, place, init, name, hstart, hsteps, hwalk, rfl, rfl, hfrom⟩ :=
    exists_last_step h hkind
  have hhere := placed_of_start hstart
  have hne : place.location ≠ [] := fun hnil => hfrom (hnil ▸ List.nil_prefix)
  have hwithout := without_erase hne fs
  obtain ⟨here', hstart', hacross⟩ : ∃ here', (fs.erase place.location).start p = .ok here' ∧
      Across fs (fs.erase place.location) place.location here here' := by
    rw [location_of_start hstart] at hfrom
    rcases hwithout.nothingAdded.start_cases hfrom with
      ⟨here₀, here', hstart₀, hstart', hacross⟩ | ⟨hnone, -⟩
    · rw [hstart] at hstart₀
      cases hstart₀
      exact ⟨here', hstart', hacross⟩
    · rw [hstart] at hnone
      cases hnone
  by_cases havoids : ∀ stop ∈ fs.stops maxLinks here init, ¬place.location <+: stop
  · -- the way to the directory is the same as before, and the name in it is free
    left
    obtain ⟨directory, hwalk', hdir, hl⟩ := hacross.walk_cleared hwithout hwalk hkind havoids
    have hlocate' : (fs.erase place.location).locate p false = .ok (.vacant directory name) :=
      locate_eq_ok.2 ⟨hcheck, here', hstart', by rw [hsteps, hwalk']⟩
    obtain ⟨fs', handle, hcreate, hlocation⟩ := createNew_of_vacant hasks hlocate' hdir
      (by rw [hl]; exact legal_of_get? hget) (by rw [hl]; exact hwithout.gone)
    exact ⟨fs', handle, hcreate, hlocation.trans hl⟩
  · -- the way came by the node itself and ends there now
    right
    simp only [not_forall, not_not] at havoids
    obtain ⟨stop, hstop, hinit⟩ := havoids
    obtain ⟨inner, hinner⟩ := exists_of_mem_stops hhere hstop
    obtain rfl := eq_of_prefix_of_get? hget hkind hinit hinner
    have hgone := hacross.walk_gone hwithout hstop hinit (List.cons_ne_nil name []) false
    have hlocate' : (fs.erase place.location).locate p false = .error (.system .noEntry) := by
      rw [locate, hcheck, resolve_eq_mapError, hstart', hsteps]
      simp only [bind, Except.bind, hgone]
      rfl
    obtain ⟨target, hnode, hthrough⟩ := walk_through_self hhere hwalk hkind hstop
    refine ⟨by simp [createNew, hasks, hlocate', bind, Except.bind], target, hnode, ?_⟩
    rcases hthrough with hmany | ⟨there, hthere, hdir⟩
    · left
      rw [find, locate, hcheck, resolve_eq_mapError, hstart, hsteps]
      simp only [bind, Except.bind, hmany]
      rfl
    · right
      obtain ⟨mode, nodes, hnodes⟩ := Node.exists_of_kind_directory hdir
      exact ⟨there.location, mode, nodes, find_eq_ok.2 ⟨there, locate_eq_ok.2 ⟨hcheck, here,
        hstart, by rw [hsteps, hthere]⟩, rfl, hnodes⟩⟩

end FileSystem

end TreeArchive
