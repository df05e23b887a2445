import TreeArchive.Proofs.Elsewhere

/-!
The nodes on the way of a path. Where a file system differs from another only at a location, the
paths whose way does not come by that location lead where they did.
-/
namespace TreeArchive

/-- What shows of a spot if entries are not looked at. -/
def Spot.view : Spot → Location × Option Node
  | .occupied place => (place.location, some place.node.shell)
  | .vacant directory name => (directory.location ++ [name], none)

namespace FileSystem

/-- The locations of the nodes that steps come to, in their order; links are followed, the last one
too. -/
def stops (fs : FileSystem) (budget : Nat) (here : Place) (steps : List Name) : List Location :=
  match steps with
  | [] => []
  | step :: rest =>
    match here.node with
    | .directory .. =>
      if step = Path.dotName then fs.stops budget here rest
      else if step = Path.dotDotName then fs.stops budget here.parent rest
      else if step.length > maxName then []
      else
        match here.child? step with
        | none => []
        | some there =>
          match there.node with
          | .link target =>
            match budget with
            | 0 => [there.location]
            | budget + 1 =>
              there.location ::
                fs.stops budget (if target.isAbsolute then fs.rootPlace else here)
                  (target.steps ++ rest)
          | _ => there.location :: fs.stops budget there rest
    | _ => []
termination_by (budget, steps.length)

/-- The locations that a path comes to, from the one where it starts. -/
def way (fs : FileSystem) (p : Path) : List Location :=
  (if p.isAbsolute then [] else fs.workingDirectory) ::
    match fs.start p with
    | .error _ => []
    | .ok here => fs.stops maxLinks here p.steps

/-- Nothing on the way of a path is at a location or below it. -/
def Avoids (fs : FileSystem) (p : Path) (l : Location) : Prop :=
  ∀ stop ∈ fs.way p, ¬l <+: stop

section Stops

variable {fs : FileSystem} {here there : Place} {step : Name}

theorem stops_dot (h : here.node.kind = .directory) (budget : Nat) (rest : List Name) :
    fs.stops budget here (Path.dotName :: rest) = fs.stops budget here rest := by
  obtain ⟨mode, nodes, hnode⟩ := Node.exists_of_kind_directory h
  rw [stops]
  simp [hnode]

theorem stops_dotDot (h : here.node.kind = .directory) (budget : Nat) (rest : List Name) :
    fs.stops budget here (Path.dotDotName :: rest) = fs.stops budget here.parent rest := by
  obtain ⟨mode, nodes, hnode⟩ := Node.exists_of_kind_directory h
  have hne : Path.dotDotName ≠ Path.dotName := by decide
  rw [stops]
  simp [hnode, hne]

theorem stops_long (h : here.node.kind = .directory) (hdot : step ≠ Path.dotName)
    (hdotDot : step ≠ Path.dotDotName) (hlong : step.length > maxName) (budget : Nat)
    (rest : List Name) : fs.stops budget here (step :: rest) = [] := by
  obtain ⟨mode, nodes, hnode⟩ := Node.exists_of_kind_directory h
  rw [stops]
  simp [hnode, hdot, hdotDot, hlong]

theorem stops_missing (h : here.node.kind = .directory) (hstep : Named step)
    (hchild : here.child? step = none) (budget : Nat) (rest : List Name) :
    fs.stops budget here (step :: rest) = [] := by
  obtain ⟨mode, nodes, hnode⟩ := Node.exists_of_kind_directory h
  rw [stops]
  simp [hnode, hstep.ne_dot, hstep.ne_dotDot, hchild]

theorem stops_link (h : here.node.kind = .directory) (hstep : Named step)
    (hchild : here.child? step = some there) {target : Path} (hlink : there.node = .link target)
    (budget : Nat) (rest : List Name) :
    fs.stops budget here (step :: rest) = there.location ::
      match budget with
      | 0 => []
      | budget + 1 => fs.stops budget (if target.isAbsolute then fs.rootPlace else here)
          (target.steps ++ rest) := by
  obtain ⟨mode, nodes, hnode⟩ := Node.exists_of_kind_directory h
  rw [stops]
  simp only [hnode, hchild, hlink]
  refine (if_neg hstep.ne_dot).trans ((if_neg hstep.ne_dotDot).trans ?_)
  refine (if_neg (Nat.not_lt.2 hstep.length_le)).trans ?_
  cases budget <;> rfl

theorem stops_node (h : here.node.kind = .directory) (hstep : Named step)
    (hchild : here.child? step = some there) (hlink : there.node.kind ≠ .link) (budget : Nat)
    (rest : List Name) :
    fs.stops budget here (step :: rest) = there.location :: fs.stops budget there rest := by
  obtain ⟨mode, nodes, hnode⟩ := Node.exists_of_kind_directory h
  rw [stops]
  cases hthere : there.node with
  | link target =>
    rw [hthere] at hlink
    exact absurd rfl hlink
  | _ =>
    simp [hnode, hstep.ne_dot, hstep.ne_dotDot, Nat.not_lt.2 hstep.length_le, hchild, hthere]

theorem stops_not_directory (h : here.node.kind ≠ .directory) (budget : Nat) (rest : List Name) :
    fs.stops budget here (step :: rest) = [] := by
  rw [stops]
  split
  · rename_i hnode
    rw [hnode] at h
    exact absurd rfl h
  · rfl

end Stops

/-- What stands at a location in the first file system, and below it, is not in the second. -/
structure Without (fs fs' : FileSystem) (l : Location) : Prop where
  same : fs.SameElsewhere fs' l
  gone : fs'.get? l = none

/-- Nothing in the second file system differs but what stands at a location or below it, and nothing
stands at it that is new. -/
structure NothingAdded (fs fs' : FileSystem) (l : Location) : Prop where
  same : fs.SameElsewhere fs' l
  ne_nil : l ≠ []
  free : fs.get? l = none → fs'.get? l = none

/-- Places at the same location, away from the one where two file systems differ. -/
structure Across (fs fs' : FileSystem) (l : Location) (here here' : Place) : Prop where
  placed : fs.Placed here
  placed' : fs'.Placed here'
  location : here'.location = here.location
  outside : ¬l <+: here.location

variable {fs fs' : FileSystem} {l : Location} {here here' there : Place}

theorem get?_erase (hl : l ≠ []) (fs : FileSystem) : (fs.erase l).get? l = none :=
  Node.get?_alter_erased hl fs.root

theorem without_erase (hl : l ≠ []) (fs : FileSystem) : fs.Without (fs.erase l) l :=
  ⟨sameElsewhere_erase fs l, get?_erase hl fs⟩

theorem Without.ne_nil (h : fs.Without fs' l) : l ≠ [] := by
  rintro rfl
  exact absurd h.gone (by simp [get?, Node.get?])

theorem Without.nothingAdded (h : fs.Without fs' l) : fs.NothingAdded fs' l :=
  ⟨h.same, h.ne_nil, fun _ => h.gone⟩

theorem get?_child (h : fs.Placed here) (name : Name) :
    fs.get? (here.location ++ [name]) = (here.child? name).map Place.node := by
  have hget := h.get?_location
  rw [get?] at hget
  rw [get?, Node.get?_concat, hget, Option.bind_some, Place.child?, Option.map_map]
  cases here.node.child? name <;> rfl

namespace Across

theorem root (hl : l ≠ []) : Across fs fs' l fs.rootPlace fs'.rootPlace :=
  ⟨.root, .root, rfl, fun h => hl (List.prefix_nil.1 h)⟩

theorem shell (h : Across fs fs' l here here') (hsame : fs.SameElsewhere fs' l) :
    here'.node.shell = here.node.shell := by
  have hshell := hsame.shell here.location h.outside
  rw [h.placed.get?_location, ← h.location, h.placed'.get?_location] at hshell
  exact Option.some.inj hshell

theorem kind_iff (h : Across fs fs' l here here') (hsame : fs.SameElsewhere fs' l) {kind : Kind} :
    here'.node.kind = kind ↔ here.node.kind = kind := by
  rw [← Node.kind_shell, h.shell hsame, Node.kind_shell]

theorem parent (h : Across fs fs' l here here') : Across fs fs' l here.parent here'.parent where
  placed := h.placed.parent
  placed' := h.placed'.parent
  location := by rw [Place.location_parent, Place.location_parent, h.location]
  outside := by
    rw [Place.location_parent]
    exact fun hinit => h.outside (hinit.trans (List.dropLast_prefix _))

theorem child (h : Across fs fs' l here here') (hsame : fs.SameElsewhere fs' l) {name : Name}
    (hchild : here.child? name = some there) (hl : ¬l <+: there.location) :
    ∃ there', here'.child? name = some there' ∧ Across fs fs' l there there' := by
  have hlocation := Place.location_of_child? hchild
  have hshell := hsame.shell _ hl
  rw [hlocation, ← h.location, get?_child h.placed', h.location, get?_child h.placed, hchild,
    Option.map_map] at hshell
  obtain ⟨there', hchild', -⟩ := Option.map_eq_some_iff.1 hshell
  refine ⟨there', hchild', h.placed.child hchild, h.placed'.child hchild', ?_, hl⟩
  rw [Place.location_of_child? hchild', hlocation, h.location]

theorem child_link (h : Across fs fs' l here here') (hsame : fs.SameElsewhere fs' l) {name : Name}
    {target : Path} (hchild : here.child? name = some there) (hl : ¬l <+: there.location)
    (hlink : there.node = .link target) :
    ∃ there', here'.child? name = some there' ∧ there'.node = .link target ∧
      Across fs fs' l there there' := by
  obtain ⟨there', hchild', hthere⟩ := h.child hsame hchild hl
  have hnode := Node.eq_of_shell (hthere.shell hsame) (by simp [hlink, Node.kind])
  exact ⟨there', hchild', hnode.trans hlink, hthere⟩

theorem child_node (h : Across fs fs' l here here') (hsame : fs.SameElsewhere fs' l) {name : Name}
    (hchild : here.child? name = some there) (hl : ¬l <+: there.location)
    (hlink : there.node.kind ≠ .link) :
    ∃ there', here'.child? name = some there' ∧ there'.node.kind ≠ .link ∧
      Across fs fs' l there there' := by
  obtain ⟨there', hchild', hthere⟩ := h.child hsame hchild hl
  exact ⟨there', hchild', fun hkind => hlink ((hthere.kind_iff hsame).1 hkind), hthere⟩

theorem child?_eq_none (h : Across fs fs' l here here') (hadded : fs.NothingAdded fs' l)
    {name : Name} (hchild : here.child? name = none) : here'.child? name = none := by
  have hget := get?_child h.placed name
  have hget' := get?_child h.placed' name
  rw [hchild] at hget
  rw [h.location] at hget'
  by_cases hl : l <+: here.location ++ [name]
  · -- the free name is at the location itself, since the directory is not below it
    obtain hself | hinit := List.prefix_concat_iff.1 hl
    · rw [← hself] at hget hget'
      rw [hadded.free hget] at hget'
      exact Option.map_eq_none_iff.1 hget'.symm
    · exact absurd hinit h.outside
  · have hshell := hadded.same.shell _ hl
    rw [hget', hget] at hshell
    simpa using hshell

/-- A step to the location itself is no longer possible. -/
theorem child?_gone (h : Across fs fs' l here here') (hwithout : fs.Without fs' l) {name : Name}
    (hchild : here.child? name = some there) (hl : l <+: there.location) :
    here'.child? name = none := by
  rw [Place.location_of_child? hchild] at hl
  have hself := (List.prefix_concat_iff.1 hl).resolve_right h.outside
  have hget' := get?_child h.placed' name
  rw [h.location, ← hself, hwithout.gone] at hget'
  exact Option.map_eq_none_iff.1 hget'.symm

end Across

/-- Steps lead to the same view where they do not come by the location. -/
theorem Across.view_walk (h : Across fs fs' l here here') (hadded : fs.NothingAdded fs' l)
    {budget : Nat} {steps : List Name} (havoids : ∀ stop ∈ fs.stops budget here steps, ¬l <+: stop)
    (follow : Bool) : (fs'.walk follow budget here' steps).map Spot.view =
      (fs.walk follow budget here steps).map Spot.view := by
  have hsame := hadded.same
  -- the places stay across from each other, so that both walks go the same way at each step
  induction budget, here, steps using fs.walk_induct generalizing here' with
  | done budget here =>
    rw [walk, walk]
    simp only [Except.map, Spot.view, h.location, h.shell hsame]
  | dot budget here rest hdir ih =>
    rw [stops_dot hdir] at havoids
    rw [walk_dot ((h.kind_iff hsame).2 hdir), walk_dot hdir]
    exact ih h havoids
  | dotDot budget here rest hdir ih =>
    rw [stops_dotDot hdir] at havoids
    rw [walk_dotDot ((h.kind_iff hsame).2 hdir), walk_dotDot hdir]
    exact ih h.parent havoids
  | long budget here step rest hdir hdot hdotDot hlong =>
    rw [walk_long ((h.kind_iff hsame).2 hdir) hdot hdotDot hlong,
      walk_long hdir hdot hdotDot hlong]
  | missing budget here step rest hdir hstep hchild =>
    rw [walk_missing ((h.kind_iff hsame).2 hdir) hstep (h.child?_eq_none hadded hchild),
      walk_missing hdir hstep hchild]
    split
    · simp only [Except.map, Spot.view, h.location]
    · rfl
  | link budget here step rest there target hdir hstep hchild hlink ih =>
    rw [stops_link hdir hstep hchild hlink, List.forall_mem_cons] at havoids
    obtain ⟨there', hchild', hlink', hthere⟩ := h.child_link hsame hchild havoids.1 hlink
    rw [walk_link ((h.kind_iff hsame).2 hdir) hstep hchild' hlink',
      walk_link hdir hstep hchild hlink]
    cases hlast : rest.isEmpty && !follow with
    | true => simp only [if_true, Except.map, Spot.view, hthere.location, hthere.shell hsame]
    | false =>
      cases budget with
      | zero => rfl
      | succ left =>
        -- the target is read from the root or from the directory of the link, in both alike
        by_cases habsolute : target.isAbsolute = true
        · simp only [habsolute, if_true] at ih havoids ⊢
          exact ih left rfl (.root hadded.ne_nil) havoids.2
        · simp only [habsolute, if_false, Bool.false_eq_true] at ih havoids ⊢
          exact ih left rfl h havoids.2
  | node budget here step rest there hdir hstep hchild hlink ih =>
    rw [stops_node hdir hstep hchild hlink, List.forall_mem_cons] at havoids
    obtain ⟨there', hchild', hlink', hthere⟩ := h.child_node hsame hchild havoids.1 hlink
    rw [walk_node ((h.kind_iff hsame).2 hdir) hstep hchild' hlink',
      walk_node hdir hstep hchild hlink]
    exact ih hthere havoids.2
  | blocked budget here step rest hblocked =>
    have hblocked' := mt (h.kind_iff hsame).1 hblocked
    rw [walk_not_directory hblocked', walk_not_directory hblocked]

/-- Steps that come by the location lead nowhere once it is gone, if there are more behind them. -/
theorem Across.walk_gone (h : Across fs fs' l here here') (hwithout : fs.Without fs' l)
    {budget : Nat} {steps more : List Name} {stop : Location}
    (hstop : stop ∈ fs.stops budget here steps) (hl : l <+: stop) (hmore : more ≠ [])
    (follow : Bool) : fs'.walk follow budget here' (steps ++ more) = .error .noEntry := by
  have hsame := hwithout.same
  have hgone {here here' : Place} {step : Name} {rest : List Name} {budget : Nat}
      (h : Across fs fs' l here here') (hdir : here.node.kind = .directory) (hstep : Named step)
      (hchild : here'.child? step = none) :
      fs'.walk follow budget here' (step :: (rest ++ more)) = .error .noEntry := by
    rw [walk_missing ((h.kind_iff hsame).2 hdir) hstep hchild, if_neg (by simp [hmore])]
  -- the first step that comes to the location finds nothing, and the steps before it go as they did
  induction budget, here, steps using fs.walk_induct generalizing here' with
  | done budget here =>
    rw [stops] at hstop
    cases hstop
  | dot budget here rest hdir ih =>
    rw [stops_dot hdir] at hstop
    rw [List.cons_append, walk_dot ((h.kind_iff hsame).2 hdir)]
    exact ih h hstop
  | dotDot budget here rest hdir ih =>
    rw [stops_dotDot hdir] at hstop
    rw [List.cons_append, walk_dotDot ((h.kind_iff hsame).2 hdir)]
    exact ih h.parent hstop
  | long budget here step rest hdir hdot hdotDot hlong =>
    rw [stops_long hdir hdot hdotDot hlong] at hstop
    cases hstop
  | missing budget here step rest hdir hstep hchild =>
    rw [stops_missing hdir hstep hchild] at hstop
    cases hstop
  | link budget here step rest there target hdir hstep hchild hlink ih =>
    by_cases hthere : l <+: there.location
    · exact hgone h hdir hstep (h.child?_gone hwithout hchild hthere)
    · obtain ⟨there', hchild', hlink', -⟩ := h.child_link hsame hchild hthere hlink
      rw [stops_link hdir hstep hchild hlink] at hstop
      rcases List.mem_cons.1 hstop with rfl | hstop
      · exact absurd hl hthere
      · rw [List.cons_append, walk_link ((h.kind_iff hsame).2 hdir) hstep hchild' hlink',
          if_neg (by simp [hmore])]
        cases budget with
        | zero => cases hstop
        | succ left =>
          simp only [← List.append_assoc]
          by_cases habsolute : target.isAbsolute = true
          · simp only [habsolute, if_true] at ih hstop ⊢
            exact ih left rfl (.root hwithout.ne_nil) hstop
          · simp only [habsolute, if_false, Bool.false_eq_true] at ih hstop ⊢
            exact ih left rfl h hstop
  | node budget here step rest there hdir hstep hchild hlink ih =>
    by_cases hthere : l <+: there.location
    · exact hgone h hdir hstep (h.child?_gone hwithout hchild hthere)
    · obtain ⟨there', hchild', hlink', hacross⟩ := h.child_node hsame hchild hthere hlink
      rw [stops_node hdir hstep hchild hlink] at hstop
      rcases List.mem_cons.1 hstop with rfl | hstop
      · exact absurd hl hthere
      · rw [List.cons_append, walk_node ((h.kind_iff hsame).2 hdir) hstep hchild' hlink']
        exact ih hacross hstop
  | blocked budget here step rest hblocked =>
    rw [stops_not_directory hblocked] at hstop
    cases hstop

theorem Across.foldlM_child? (h : Across fs fs' l here here') (hsame : fs.SameElsewhere fs' l)
    {names : List Name} (hl : ¬l <+: here.location ++ names) :
    (∃ there there', names.foldlM Place.child? here = some there ∧
      names.foldlM Place.child? here' = some there' ∧ Across fs fs' l there there') ∨
    (names.foldlM Place.child? here = none ∧ names.foldlM Place.child? here' = none) := by
  induction names generalizing here here' with
  | nil => exact .inl ⟨here, here', rfl, rfl, h⟩
  | cons name rest ih =>
    -- each directory on the way is a prefix of the last, so it is away from the location too
    have hsplit : here.location ++ name :: rest = (here.location ++ [name]) ++ rest := by simp
    rw [hsplit] at hl
    have hnext : ¬l <+: here.location ++ [name] :=
      fun hinit => hl (hinit.trans (List.prefix_append _ _))
    simp only [List.foldlM_cons]
    cases hchild : here.child? name with
    | none =>
      have hshell := hsame.shell _ hnext
      rw [← h.location, get?_child h.placed', h.location, get?_child h.placed, hchild] at hshell
      have hchild' : here'.child? name = none := by simpa using hshell
      rw [hchild']
      exact .inr ⟨rfl, rfl⟩
    | some there =>
      have hthere := Place.location_of_child? hchild
      obtain ⟨there', hchild', hacross⟩ := h.child hsame hchild (by rwa [hthere])
      rw [hchild']
      exact ih hacross (by rwa [hthere])

theorem location_of_start {p : Path} (h : fs.start p = .ok here) :
    here.location = if p.isAbsolute then [] else fs.workingDirectory := by
  have hfold (names : List Name) {here there : Place}
      (h : names.foldlM Place.child? here = some there) :
      there.location = here.location ++ names := by
    induction names generalizing here with
    | nil =>
      cases h
      exact (List.append_nil _).symm
    | cons name rest ih =>
      rw [List.foldlM_cons] at h
      obtain ⟨next, hnext, hrest⟩ := Option.bind_eq_some_iff.1 h
      rw [ih hrest, Place.location_of_child? hnext, List.append_assoc]
      rfl
  simp only [start] at h
  split at h
  · rename_i found hfound
    cases h
    exact hfold _ hfound
  · cases h

/-- A path that starts away from the location starts at the same location in both file systems. -/
theorem NothingAdded.start_cases (hadded : fs.NothingAdded fs' l) {p : Path}
    (hl : ¬l <+: if p.isAbsolute then [] else fs.workingDirectory) :
    (∃ here here', fs.start p = .ok here ∧ fs'.start p = .ok here' ∧ Across fs fs' l here here') ∨
    (fs.start p = .error .noEntry ∧ fs'.start p = .error .noEntry) := by
  have hroot : Across fs fs' l fs.rootPlace fs'.rootPlace := .root hadded.ne_nil
  unfold start
  rw [hadded.same.workingDirectory]
  rcases hroot.foldlM_child? hadded.same (by simpa [rootPlace, Place.location] using hl) with
    ⟨here, here', hhere, hhere', hacross⟩ | ⟨hnone, hnone'⟩
  · exact .inl ⟨here, here', by simp only [hhere], by simp only [hhere'], hacross⟩
  · exact .inr ⟨by simp only [hnone], by simp only [hnone']⟩

theorem resolve_eq_mapError (fs : FileSystem) (p : Path) (steps : List Name) (links : Bool) :
    fs.resolve p steps links =
      (fs.start p >>= fun here => fs.walk links maxLinks here steps).mapError .system := by
  unfold resolve
  cases fs.start p >>= fun here => fs.walk links maxLinks here steps <;> rfl

/-- A path that avoids the location leads to the same view in both file systems. -/
theorem NothingAdded.view_locate (hadded : fs.NothingAdded fs' l) {p : Path}
    (havoids : fs.Avoids p l) (follow : Bool) :
    (fs'.locate p follow).map Spot.view = (fs.locate p follow).map Spot.view := by
  rw [Avoids, way, List.forall_mem_cons] at havoids
  have hsystem (w : Except Errno Spot) : (w.mapError IoError.system).map Spot.view =
      (w.map Spot.view).mapError IoError.system := by
    cases w <;> rfl
  rw [locate, locate]
  cases checkPath p with
  | error e => rfl
  | ok u =>
    simp only [bind, Except.bind, resolve_eq_mapError, hsystem]
    rcases hadded.start_cases havoids.1 with ⟨here, here', hstart, hstart', hacross⟩ |
      ⟨hstart, hstart'⟩
    · rw [hstart] at havoids
      have hview := hacross.view_walk hadded havoids.2 follow
      rw [hstart, hstart']
      exact congrArg _ hview
    · rw [hstart, hstart']

end FileSystem

end TreeArchive
