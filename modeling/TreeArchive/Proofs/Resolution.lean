import TreeArchive.FileSystem.Placed
import TreeArchive.Proofs.Components

/-! Looking up a name below a directory, and what following a link at the end changes. -/
namespace TreeArchive

theorem Node.exists_of_kind_directory {node : Node} (h : node.kind = .directory) :
    ∃ mode nodes, node = .directory mode nodes := by
  cases node with
  | directory mode nodes => exact ⟨mode, nodes, rfl⟩
  | file data => cases h
  | link target => cases h
  | pipe => cases h

theorem Node.exists_of_kind_file {node : Node} (h : node.kind = .file) :
    ∃ data, node = .file data := by
  cases node with
  | directory mode nodes => cases h
  | file data => exact ⟨data, rfl⟩
  | link target => cases h
  | pipe => cases h

theorem Node.exists_of_kind_link {node : Node} (h : node.kind = .link) :
    ∃ target, node = .link target := by
  cases node with
  | directory mode nodes => cases h
  | file data => cases h
  | link target => exact ⟨target, rfl⟩
  | pipe => cases h

namespace FileSystem

variable {fs : FileSystem} {here there : Place} {step : Name}

/-- A step that is taken by its name. -/
structure Named (step : Name) : Prop where
  ne_dot : step ≠ Path.dotName
  ne_dotDot : step ≠ Path.dotDotName
  length_le : step.length ≤ maxName

theorem walk_dot (h : here.node.kind = .directory) (follow : Bool) (budget : Nat)
    (rest : List Name) :
    fs.walk follow budget here (Path.dotName :: rest) = fs.walk follow budget here rest := by
  obtain ⟨mode, nodes, hnode⟩ := Node.exists_of_kind_directory h
  rw [walk]
  simp [hnode]

theorem walk_dotDot (h : here.node.kind = .directory) (follow : Bool) (budget : Nat)
    (rest : List Name) :
    fs.walk follow budget here (Path.dotDotName :: rest) =
      fs.walk follow budget here.parent rest := by
  obtain ⟨mode, nodes, hnode⟩ := Node.exists_of_kind_directory h
  have hne : Path.dotDotName ≠ Path.dotName := by decide
  rw [walk]
  simp [hnode, hne]

theorem walk_long (h : here.node.kind = .directory) (hdot : step ≠ Path.dotName)
    (hdotDot : step ≠ Path.dotDotName) (hlong : step.length > maxName) (follow : Bool)
    (budget : Nat) (rest : List Name) :
    fs.walk follow budget here (step :: rest) = .error .nameTooLong := by
  obtain ⟨mode, nodes, hnode⟩ := Node.exists_of_kind_directory h
  rw [walk]
  simp [hnode, hdot, hdotDot, hlong]

theorem walk_not_directory (h : here.node.kind ≠ .directory) (follow : Bool) (budget : Nat)
    (rest : List Name) :
    fs.walk follow budget here (step :: rest) = .error .notDirectory := by
  rw [walk]
  split
  · rename_i hnode
    rw [hnode] at h
    exact absurd rfl h
  · rfl

theorem walk_missing (h : here.node.kind = .directory) (hstep : Named step)
    (hchild : here.child? step = none) (follow : Bool) (budget : Nat) (rest : List Name) :
    fs.walk follow budget here (step :: rest) =
      if rest.isEmpty then .ok (.vacant here step) else .error .noEntry := by
  obtain ⟨mode, nodes, hnode⟩ := Node.exists_of_kind_directory h
  rw [walk]
  simp [hnode, hstep.ne_dot, hstep.ne_dotDot, Nat.not_lt.2 hstep.length_le, hchild]

theorem walk_link (h : here.node.kind = .directory) (hstep : Named step)
    (hchild : here.child? step = some there) {target : Path} (hlink : there.node = .link target)
    (follow : Bool) (budget : Nat) (rest : List Name) :
    fs.walk follow budget here (step :: rest) =
      if rest.isEmpty && !follow then .ok (.occupied there)
      else
        match budget with
        | 0 => .error .tooManyLinks
        | budget + 1 =>
          fs.walk follow budget (if target.isAbsolute then fs.rootPlace else here)
            (target.steps ++ rest) := by
  obtain ⟨mode, nodes, hnode⟩ := Node.exists_of_kind_directory h
  rw [walk]
  simp only [hnode, hchild, hlink]
  refine (if_neg hstep.ne_dot).trans ((if_neg hstep.ne_dotDot).trans ?_)
  refine (if_neg (Nat.not_lt.2 hstep.length_le)).trans ?_
  cases budget <;> rfl

theorem walk_node (h : here.node.kind = .directory) (hstep : Named step)
    (hchild : here.child? step = some there) (hlink : there.node.kind ≠ .link) (follow : Bool)
    (budget : Nat) (rest : List Name) :
    fs.walk follow budget here (step :: rest) = fs.walk follow budget there rest := by
  obtain ⟨mode, nodes, hnode⟩ := Node.exists_of_kind_directory h
  rw [walk]
  cases hthere : there.node with
  | link target =>
    rw [hthere] at hlink
    exact absurd rfl hlink
  | _ =>
    simp [hnode, hstep.ne_dot, hstep.ne_dotDot, Nat.not_lt.2 hstep.length_le, hchild, hthere]

/-- Induction along the steps of a path, one case for each way in which a step can go. -/
@[elab_as_elim]
theorem walk_induct (fs : FileSystem) {motive : Nat → Place → List Name → Prop}
    (done : ∀ budget here, motive budget here [])
    (dot : ∀ budget here rest, here.node.kind = .directory → motive budget here rest →
      motive budget here (Path.dotName :: rest))
    (dotDot : ∀ budget here rest, here.node.kind = .directory →
      motive budget here.parent rest → motive budget here (Path.dotDotName :: rest))
    (long : ∀ budget here step rest, here.node.kind = .directory → step ≠ Path.dotName →
      step ≠ Path.dotDotName → step.length > maxName → motive budget here (step :: rest))
    (missing : ∀ budget here step rest, here.node.kind = .directory → Named step →
      here.child? step = none → motive budget here (step :: rest))
    (link : ∀ budget here step rest there target, here.node.kind = .directory → Named step →
      here.child? step = some there → there.node = .link target →
      (∀ left, budget = left + 1 → motive left (if target.isAbsolute then fs.rootPlace else here)
        (target.steps ++ rest)) → motive budget here (step :: rest))
    (node : ∀ budget here step rest there, here.node.kind = .directory → Named step →
      here.child? step = some there → there.node.kind ≠ .link → motive budget there rest →
      motive budget here (step :: rest))
    (blocked : ∀ budget here step rest, here.node.kind ≠ .directory →
      motive budget here (step :: rest))
    (budget : Nat) (here : Place) (steps : List Name) : motive budget here steps := by
  have hdirectory {here : Place} {mode : Nat} {nodes : List (Name × Node)}
      (hnode : here.node = .directory mode nodes) : here.node.kind = .directory := by
    rw [hnode]
    rfl
  -- followed to the end, a path takes every step that it can take at all
  fun_induction walk fs true budget here steps with
  | case1 budget here => exact done budget here
  | case2 budget here rest mode nodes hnode ih => exact dot _ _ _ (hdirectory hnode) ih
  | case3 budget here rest mode nodes hnode _ ih => exact dotDot _ _ _ (hdirectory hnode) ih
  | case4 budget here step rest mode nodes hnode hdot hdotDot hlong =>
    exact long _ _ _ _ (hdirectory hnode) hdot hdotDot hlong
  | case5 budget here step rest mode nodes hnode hdot hdotDot hlong hchild =>
    exact missing _ _ _ _ (hdirectory hnode) ⟨hdot, hdotDot, Nat.not_lt.1 hlong⟩ hchild
  | case6 budget here step rest mode nodes hnode hdot hdotDot hlong hchild =>
    exact missing _ _ _ _ (hdirectory hnode) ⟨hdot, hdotDot, Nat.not_lt.1 hlong⟩ hchild
  | case7 _ _ _ _ _ _ _ _ _ _ _ _ _ _ hlast => simp at hlast
  | case8 here step rest mode nodes hnode hdot hdotDot hlong there hchild target hlink =>
    apply link _ _ _ _ there target (hdirectory hnode) ⟨hdot, hdotDot, Nat.not_lt.1 hlong⟩ hchild
      hlink
    intro left hleft
    cases hleft
  | case9 here step rest mode nodes hnode hdot hdotDot hlong there hchild target hlink hlast budget
      ih =>
    apply link _ _ _ _ there target (hdirectory hnode) ⟨hdot, hdotDot, Nat.not_lt.1 hlong⟩ hchild
      hlink
    intro left hleft
    cases hleft
    exact ih
  | case10 budget here step rest mode nodes hnode hdot hdotDot hlong there hchild hlink ih =>
    have hkind : there.node.kind ≠ .link := by
      cases hthere : there.node with
      | link target => exact absurd hthere (hlink target)
      | _ => simp [Node.kind]
    exact node _ _ _ _ there (hdirectory hnode) ⟨hdot, hdotDot, Nat.not_lt.1 hlong⟩ hchild hkind ih
  | case11 budget here step rest hnode =>
    have hkind : here.node.kind ≠ .directory := by
      cases hhere : here.node with
      | directory mode nodes => exact absurd hhere (hnode mode nodes)
      | _ => simp [Node.kind]
    exact blocked _ _ _ _ hkind

/-- A last step that is not followed leads to what has the name, if anything has. -/
theorem walk_last (h : here.node.kind = .directory) (hstep : Named step) (budget : Nat) :
    fs.walk false budget here [step] =
      match here.child? step with
      | none => .ok (.vacant here step)
      | some there => .ok (.occupied there) := by
  cases hchild : here.child? step with
  | none =>
    rw [walk_missing h hstep hchild]
    rfl
  | some there =>
    by_cases hkind : there.node.kind = .link
    · cases hthere : there.node with
      | link target =>
        rw [walk_link h hstep hchild hthere]
        rfl
      | directory mode nodes => simp [hthere, Node.kind] at hkind
      | file data => simp [hthere, Node.kind] at hkind
      | pipe => simp [hthere, Node.kind] at hkind
    · rw [walk_node h hstep hchild hkind, walk]

/-- Steps lead to a place from which any more steps go on, or no steps behind them lead anywhere. -/
theorem walk_append (fs : FileSystem) (budget : Nat) (here : Place) (xs : List Name) :
    (∃ place left, left ≤ budget ∧ fs.walk true budget here xs = .ok (.occupied place) ∧
      ∀ follow ys, ys ≠ [] → fs.walk follow budget here (xs ++ ys) = fs.walk follow left place ys) ∨
    ((∀ place, fs.walk true budget here xs ≠ .ok (.occupied place)) ∧
      ∀ follow ys spot, ys ≠ [] → fs.walk follow budget here (xs ++ ys) ≠ .ok spot) := by
  -- a link puts the steps of its target before the rest, and what is behind the rest stays behind
  induction budget, here, xs using fs.walk_induct with
  | done budget here =>
    exact .inl ⟨here, budget, Nat.le_refl budget, by rw [walk], fun _ _ _ => rfl⟩
  | dot budget here rest hdir ih =>
    simp only [List.cons_append, walk_dot hdir]
    exact ih
  | dotDot budget here rest hdir ih =>
    simp only [List.cons_append, walk_dotDot hdir]
    exact ih
  | long budget here step rest hdir hdot hdotDot hlong =>
    right
    simp [walk_long hdir hdot hdotDot hlong]
  | missing budget here step rest hdir hstep hchild =>
    -- with more steps behind it, a name that is missing is an error
    right
    constructor
    · intro place
      rw [walk_missing hdir hstep hchild]
      split <;> simp
    · intro follow ys spot hys
      rw [List.cons_append, walk_missing hdir hstep hchild, if_neg (by simp [hys])]
      simp
  | link budget here step rest there target hdir hstep hchild hlink ih =>
    have htrue (left : Nat) (ys : List Name) : fs.walk true (left + 1) here (step :: ys) =
        fs.walk true left (if target.isAbsolute then fs.rootPlace else here)
          (target.steps ++ ys) := by
      simp [walk_link hdir hstep hchild hlink]
    have hmore (left : Nat) (follow : Bool) (ys : List Name) (hys : ys ≠ []) :
        fs.walk follow (left + 1) here (step :: rest ++ ys) =
          fs.walk follow left (if target.isAbsolute then fs.rootPlace else here)
            (target.steps ++ rest ++ ys) := by
      rw [List.cons_append, walk_link hdir hstep hchild hlink, if_neg (by simp [hys]),
        List.append_assoc]
    cases budget with
    | zero =>
      right
      constructor
      · intro place
        simp [walk_link hdir hstep hchild hlink]
      · intro follow ys spot hys
        rw [List.cons_append, walk_link hdir hstep hchild hlink, if_neg (by simp [hys])]
        simp
    | succ left =>
      rcases ih left rfl with ⟨place, last, hlast, hwalk, hgo⟩ | ⟨hwalk, hgo⟩
      · refine .inl ⟨place, last, Nat.le_succ_of_le hlast, (htrue left rest).trans hwalk, ?_⟩
        intro follow ys hys
        rw [hmore left follow ys hys]
        exact hgo follow ys hys
      · right
        constructor
        · intro place
          rw [htrue]
          exact hwalk place
        · intro follow ys spot hys
          rw [hmore left follow ys hys]
          exact hgo follow ys spot hys
  | node budget here step rest there hdir hstep hchild hlink ih =>
    simp only [List.cons_append, walk_node hdir hstep hchild hlink]
    exact ih
  | blocked budget here step rest hkind =>
    right
    simp [walk_not_directory hkind]

/-- Following a link at the end makes a difference only where there is one. -/
theorem walk_follow (fs : FileSystem) (budget : Nat) (here : Place) (steps : List Name) :
    (∃ place, fs.walk false budget here steps = .ok (.occupied place) ∧
      place.node.kind = .link) ∨
    fs.walk true budget here steps = fs.walk false budget here steps := by
  induction budget, here, steps using fs.walk_induct with
  | done budget here => exact .inr (by rw [walk, walk])
  | dot budget here rest hdir ih =>
    rw [walk_dot hdir, walk_dot hdir]
    exact ih
  | dotDot budget here rest hdir ih =>
    rw [walk_dotDot hdir, walk_dotDot hdir]
    exact ih
  | long budget here step rest hdir hdot hdotDot hlong =>
    right
    rw [walk_long hdir hdot hdotDot hlong, walk_long hdir hdot hdotDot hlong]
  | missing budget here step rest hdir hstep hchild =>
    right
    rw [walk_missing hdir hstep hchild, walk_missing hdir hstep hchild]
  | link budget here step rest there target hdir hstep hchild hlink ih =>
    rw [walk_link hdir hstep hchild hlink, walk_link hdir hstep hchild hlink]
    cases hrest : rest.isEmpty with
    | true =>
      -- the link is the last step, so this is where the two may part
      exact .inl ⟨there, rfl, by rw [hlink]; rfl⟩
    | false =>
      cases budget with
      | zero => exact .inr rfl
      | succ left => exact ih left rfl
  | node budget here step rest there hdir hstep hchild hlink ih =>
    rw [walk_node hdir hstep hchild hlink, walk_node hdir hstep hchild hlink]
    exact ih
  | blocked budget here step rest hkind =>
    right
    rw [walk_not_directory hkind, walk_not_directory hkind]

/-- A path that is not followed at its end leads where it does when followed, unless to a link. -/
theorem find_follow (fs : FileSystem) (p : Path) :
    (∃ l node, fs.find p false = .ok (l, node) ∧ node.kind = .link) ∨
      fs.find p true = fs.find p false := by
  unfold find locate resolve
  cases hcheck : checkPath p with
  | error e => exact .inr rfl
  | ok u =>
    cases hstart : fs.start p with
    | error e => exact .inr rfl
    | ok here =>
      simp only [bind, Except.bind]
      rcases fs.walk_follow maxLinks here p.steps with ⟨place, hwalk, hkind⟩ | hwalk
      · exact .inl ⟨place.location, place.node, by rw [hwalk], hkind⟩
      · exact .inr (by rw [hwalk])

/-- What a path leads to when followed, it leads to when not followed, or to a link. -/
theorem find_true_cases {p : Path} {l : Location} {node : Node}
    (h : fs.find p true = .ok (l, node)) :
    fs.find p false = .ok (l, node) ∨ ∃ l' target, fs.find p false = .ok (l', .link target) := by
  rcases fs.find_follow p with ⟨l', node', hfind, hkind⟩ | hfind
  · cases node' with
    | link target => exact .inr ⟨l', target, hfind⟩
    | directory mode nodes => cases hkind
    | file data => cases hkind
    | pipe => cases hkind
  · exact .inl (hfind ▸ h)

theorem find_true_of_ne_link {p : Path} {l : Location} {node : Node}
    (h : fs.find p false = .ok (l, node)) (hkind : node.kind ≠ .link) :
    fs.find p true = .ok (l, node) := by
  rcases fs.find_follow p with ⟨l', node', hfind, hlink⟩ | hfind
  · rw [h] at hfind
    cases hfind
    exact absurd hlink hkind
  · rw [hfind, h]

end FileSystem

namespace Path

/-- The names between separators; a path's steps but for the one that a last separator adds. -/
def stepNames (p : Path) : List Name :=
  p.segments.filter (!·.isEmpty)

theorem steps_eq (p : Path) : p.steps = p.stepNames ∨ p.steps = p.stepNames ++ [dotName] := by
  simp only [steps]
  split
  · exact .inr rfl
  · exact .inl rfl

variable {d : Path} {name : Name}

theorem child_bytes (hname : Ordinary name) :
    (d.child name).bytes = d.bytes ++ name ∧ (d.bytes = [] ∨ d.bytes.getLast? = some slash) ∨
      (d.child name).bytes = d.bytes ++ slash :: name ∧ d.bytes ≠ [] := by
  unfold child append
  rw [isAbsolute_of_ordinary hname]
  simp only [Bool.false_eq_true, if_false]
  split
  · rename_i h
    rw [Bool.or_eq_true, List.isEmpty_iff, beq_iff_eq] at h
    exact .inl ⟨rfl, h⟩
  · rename_i h
    rw [Bool.or_eq_true, List.isEmpty_iff, beq_iff_eq, not_or] at h
    exact .inr ⟨rfl, h.1⟩

theorem getLast?_child (hname : Ordinary name) : (d.child name).bytes.getLast? ≠ some slash := by
  have hlast (front : List UInt8) : (front ++ name).getLast? ≠ some slash := by
    rw [List.getLast?_append_of_ne_nil _ hname.ne_nil]
    intro h
    exact hname.slash_not_mem (List.mem_of_getLast? h)
  rcases child_bytes (d := d) hname with ⟨h, -⟩ | ⟨h, -⟩
  · rw [h]
    exact hlast d.bytes
  · rw [h, ← List.singleton_append, ← List.append_assoc]
    exact hlast _

theorem isAbsolute_child (hname : Ordinary name) (hd : d.bytes ≠ []) :
    (d.child name).isAbsolute = d.isAbsolute := by
  obtain ⟨b, rest, hbytes⟩ := List.exists_cons_of_ne_nil hd
  rcases child_bytes (d := d) hname with ⟨h, -⟩ | ⟨h, -⟩
  · simp [isAbsolute, h, hbytes]
  · simp [isAbsolute, h, hbytes]

theorem stepNames_child (hname : Ordinary name) :
    (d.child name).stepNames = d.stepNames ++ [name] := by
  have hfilter : [name].filter (!·.isEmpty) = [name] := by simp [hname.ne_nil]
  have happend (front : List UInt8) :
      stepNames ⟨front ++ slash :: name⟩ = stepNames ⟨front⟩ ++ [name] := by
    rw [stepNames, segments_append, List.filter_append, segments_of_ordinary hname, hfilter]
    rfl
  obtain ⟨bytes⟩ := d
  rcases child_bytes (d := ⟨bytes⟩) hname with ⟨h, hend⟩ | ⟨h, -⟩
  · have hchild : child ⟨bytes⟩ name = ⟨bytes ++ name⟩ := congrArg Path.mk h
    rw [hchild]
    rcases List.eq_nil_or_concat' bytes with rfl | ⟨front, last, rfl⟩
    · rw [List.nil_append, stepNames, segments_of_ordinary hname, hfilter]
      rfl
    · -- the separator at the end of the path is the one before the name
      obtain rfl : last = slash := by simpa using hend
      have hfront : stepNames ⟨front ++ [slash]⟩ = stepNames ⟨front⟩ := by
        rw [stepNames, segments_append, List.filter_append]
        simp [stepNames, segments, Text.pieces]
      rw [List.append_assoc, List.singleton_append, happend, hfront]
  · have hchild : child ⟨bytes⟩ name = ⟨bytes ++ slash :: name⟩ := congrArg Path.mk h
    rw [hchild, happend]

theorem steps_child (hname : Ordinary name) : (d.child name).steps = d.stepNames ++ [name] := by
  have hlast : ((d.child name).bytes.getLast? == some slash) = false := by
    rw [beq_eq_false_iff_ne]
    exact getLast?_child hname
  rw [← stepNames_child hname]
  unfold steps
  rw [hlast]
  rfl

end Path

namespace FileSystem

variable {fs : FileSystem} {d : Path} {name : Name}

theorem named_of_isLegalName (h : isLegalName name = true) : Named name := by
  have hordinary := Path.ordinary_of_isLegalName h
  refine ⟨hordinary.ne_dot, hordinary.ne_dotDot, ?_⟩
  simp only [isLegalName, Bool.and_eq_true, decide_eq_true_eq] at h
  exact h.1.1.2

theorem start_child (hname : Path.Ordinary name) (hd : d.bytes ≠ []) :
    fs.start (d.child name) = fs.start d := by
  unfold start
  rw [Path.isAbsolute_child hname hd]

theorem checkPath_child (hname : isLegalName name = true) (hd : d.bytes ≠ []) :
    checkPath (d.child name) = .ok () ↔
      checkPath d = .ok () ∧ (d.child name).bytes.length < maxPath := by
  have hordinary := Path.ordinary_of_isLegalName hname
  have hzero : name.contains 0 = false := by
    simp only [isLegalName, Bool.and_eq_true, Bool.not_eq_true'] at hname
    exact hname.2
  have hcontains : (d.child name).bytes.contains 0 = d.bytes.contains 0 := by
    have hslash : (0 : UInt8) ≠ Path.slash := by decide
    simp only [List.contains_eq_mem, decide_eq_false_iff_not] at hzero
    rcases Path.child_bytes (d := d) hordinary with ⟨h, -⟩ | ⟨h, -⟩
    · simp [h, hzero]
    · simp [h, hzero, hslash]
  have hgrow := Path.length_lt_child (p := d) hname
  have hempty : (d.child name).bytes ≠ [] := List.ne_nil_of_length_pos (by omega)
  simp only [checkPath_eq_ok, hcontains, List.isEmpty_eq_false_iff, ne_eq, hd, hempty,
    not_false_eq_true, true_and]
  constructor
  · rintro ⟨hnul, hlength⟩
    exact ⟨⟨hnul, by omega⟩, hlength⟩
  · rintro ⟨⟨hnul, -⟩, hlength⟩
    exact ⟨hnul, hlength⟩

theorem walk_steps_of_directory {budget : Nat} {here place : Place}
    (hkind : place.node.kind = .directory) :
    fs.walk true budget here d.steps = .ok (.occupied place) ↔
      fs.walk true budget here d.stepNames = .ok (.occupied place) := by
  rcases d.steps_eq with h | h
  · rw [h]
  · -- a separator at the end asks for a directory, and that is what there is
    rw [h]
    rcases fs.walk_append budget here d.stepNames with
      ⟨there, left, -, hwalk, hmore⟩ | ⟨hwalk, hmore⟩
    · rw [hmore true _ (by simp), hwalk]
      by_cases hthere : there.node.kind = .directory
      · rw [walk_dot hthere, walk]
      · rw [walk_not_directory hthere]
        simp only [reduceCtorEq, Except.ok.injEq, Spot.occupied.injEq, false_iff]
        rintro rfl
        exact hthere hkind
    · simp [hwalk, hmore true [Path.dotName] _ (by simp)]

/-- A name below a path leads, links at its end not followed, to what a directory has under it. -/
theorem find_child {l : Location} {node : Node} (hname : isLegalName name = true)
    (hd : d.bytes ≠ []) :
    fs.find (d.child name) false = .ok (l, node) ↔ (d.child name).bytes.length < maxPath ∧
      ∃ outer mode nodes, fs.find d true = .ok (outer, .directory mode nodes) ∧
        nodes.lookup name = some node ∧ outer ++ [name] = l := by
  have hordinary := Path.ordinary_of_isLegalName hname
  have hnamed := named_of_isLegalName hname
  simp only [find_eq_ok, locate_eq_ok, checkPath_child hname hd, start_child hordinary hd,
    Path.steps_child hordinary]
  constructor
  · -- the name is the last step, and the steps before it are those of the path above
    intro h
    obtain ⟨place, ⟨⟨hcheck, hlength⟩, here, hstart, hwalk⟩, rfl, rfl⟩ := h
    refine ⟨hlength, ?_⟩
    rcases fs.walk_append maxLinks here d.stepNames with
      ⟨outer, left, -, houter, hmore⟩ | ⟨-, hmore⟩
    · rw [hmore false _ (by simp)] at hwalk
      by_cases hkind : outer.node.kind = .directory
      · obtain ⟨mode, nodes, hnodes⟩ := Node.exists_of_kind_directory hkind
        have hplace : outer.child? name = some place := by
          rw [walk_last hkind hnamed] at hwalk
          cases hchild : outer.child? name with
          | none => simp [hchild] at hwalk
          | some there => simpa [hchild] using hwalk
        refine ⟨outer.location, mode, nodes, ⟨outer, ⟨hcheck, here, hstart,
          (walk_steps_of_directory hkind).2 houter⟩, rfl, hnodes⟩, ?_, ?_⟩
        · obtain ⟨node, hnode, rfl⟩ := Place.child?_eq_some.1 hplace
          rw [hnodes] at hnode
          exact hnode
        · exact (Place.location_of_child? hplace).symm
      · rw [walk_not_directory hkind] at hwalk
        cases hwalk
    · exact absurd hwalk (hmore false [name] _ (by simp))
  · intro h
    obtain ⟨hlength, _, mode, nodes, houter, hlookup, rfl⟩ := h
    obtain ⟨outer, ⟨hcheck, here, hstart, hwalk⟩, rfl, hnodes⟩ := houter
    have hkind : outer.node.kind = .directory := by rw [hnodes]; rfl
    rw [walk_steps_of_directory hkind] at hwalk
    have hchild : outer.child? name = some ⟨node, (name, outer.node) :: outer.trail⟩ :=
      Place.child?_eq_some.2 ⟨node, by rw [hnodes]; exact hlookup, rfl⟩
    refine ⟨_, ⟨⟨hcheck, hlength⟩, here, hstart, ?_⟩, Place.location_of_child? hchild, rfl⟩
    rcases fs.walk_append maxLinks here d.stepNames with
      ⟨place, left, -, hplace, hmore⟩ | ⟨hnone, -⟩
    · rw [hwalk] at hplace
      cases hplace
      rw [hmore false _ (by simp)]
      rw [walk_last hkind hnamed, hchild]
    · exact absurd hwalk (hnone _)

end FileSystem

end TreeArchive
