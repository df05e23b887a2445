import TreeArchive.FileSystem.Literal
import TreeArchive.Proofs.CanonicalPath
import TreeArchive.Proofs.Omitted
import TreeArchive.Proofs.PortableName
import TreeArchive.Proofs.Rejoined

/-!
Where a normal form leads. A path that meets no link takes back a name exactly where it steps out of
a directory, so what is left of its components are the names on the way to the place it leads to. Its
normal form is the path of this place.
-/
namespace TreeArchive

open FileSystem

theorem Text.length_join {α : Type} (sep : α) {parts : List (List α)} (hne : parts ≠ []) :
    (join sep parts).length + 1 = (parts.map (·.length + 1)).sum := by
  induction parts with
  | nil => exact absurd rfl hne
  | cons part rest ih =>
    cases rest with
    | nil => simp [join]
    | cons next rest =>
      rw [List.map_cons, List.sum_cons, ← ih (by simp), join, List.length_append, List.length_cons]
      · omega
      · simp

namespace Path

variable {p : Path} {names : List Name}

theorem bytes_eq_join (p : Path) : p.bytes = Text.join slash p.segments :=
  (Text.join_pieces slash p.bytes).symm

theorem length_bytes (p : Path) : p.bytes.length + 1 = (p.segments.map (·.length + 1)).sum := by
  rw [bytes_eq_join]
  exact Text.length_join slash (Text.pieces_ne_nil _ _)

theorem segments_toPath (hne : names ≠ []) (hslash : ∀ n ∈ names, slash ∉ n) :
    (Location.toPath names).segments = [] :: names := by
  have hsegments : (Location.toPath names).segments = [] :: segments ⟨Text.join slash names⟩ := by
    simp [Location.toPath, segments, Text.pieces]
  rw [hsegments, segments_join hne hslash]

theorem steps_toPath (hnames : ∀ n ∈ names, n ≠ [] ∧ slash ∉ n) :
    (Location.toPath names).steps = names := by
  rcases List.eq_nil_or_concat' names with rfl | ⟨front, last, rfl⟩
  · rfl
  · have hsegments : (Location.toPath (front ++ [last])).segments = [] :: (front ++ [last]) :=
      segments_toPath (by simp) fun n hn => (hnames n hn).2
    have hlast : (Location.toPath (front ++ [last])).bytes.getLast? ≠ some slash := by
      -- behind a separator at the end stands an empty segment
      intro hend
      obtain ⟨text, htext⟩ := List.getLast?_eq_some_iff.1 hend
      have happend : (Location.toPath (front ++ [last])).segments = segments ⟨text⟩ ++ [[]] := by
        rw [segments, htext]
        exact segments_append
      rw [hsegments, ← List.cons_append] at happend
      have hempty : last = [] := by simpa using (List.append_inj' happend rfl).2
      exact (hnames last (by simp)).1 hempty
    rw [steps, hsegments, List.filter_cons_of_neg (by simp), beq_eq_false_iff_ne.2 hlast,
      Bool.false_and, if_neg Bool.false_ne_true, List.filter_eq_self]
    intro n hn
    simpa using (hnames n hn).1

/-- The path from the root through some of the names of a path can be looked up if that can. -/
theorem checkPath_toPath (hp : p.isAbsolute = true) (hcheck : checkPath p = .ok ())
    (hnames : names.Sublist p.stepNames) : checkPath (Location.toPath names) = .ok () := by
  rcases eq_or_ne names [] with rfl | hne
  · rfl
  · have hsegments : (Location.toPath names).segments.Sublist p.segments := by
      rw [segments_toPath hne, segments_of_isAbsolute hp, List.cons_sublist_cons]
      · rw [stepNames, segments_of_isAbsolute hp, List.filter_cons_of_neg (by simp)] at hnames
        exact hnames.trans List.filter_sublist
      · intro n hn
        exact slash_not_mem_of_mem_segments (List.mem_of_mem_filter (hnames.subset hn))
    obtain ⟨hzero, hempty, hlength⟩ := checkPath_eq_ok.1 hcheck
    refine checkPath_eq_ok.2 ⟨?_, rfl, ?_⟩
    · have hmem (q : Path) : (0 : UInt8) ∈ q.bytes ↔ ∃ part ∈ q.segments, (0 : UInt8) ∈ part := by
        rw [bytes_eq_join q]
        exact Text.mem_join (by decide)
      rw [List.contains_eq_mem, decide_eq_false_iff_not, hmem] at hzero ⊢
      rintro ⟨part, hpart, hin⟩
      exact hzero ⟨part, hsegments.subset hpart, hin⟩
    · have hle := (hsegments.map (·.length + 1)).sum_le_sum (by simp)
      rw [← length_bytes, ← length_bytes] at hle
      omega

theorem reverse_foldl_sublist (cs met : List Component) :
    (cs.foldl normalStep met).reverse.Sublist (met.reverse ++ cs) := by
  induction cs generalizing met with
  | nil => simp
  | cons c rest ih =>
    have hstep : (normalStep met c).reverse.Sublist (met.reverse ++ [c]) := by
      unfold normalStep
      split
      · exact List.sublist_append_left _ _
      · rw [List.reverse_cons, List.append_assoc]
        exact List.sublist_append_left _ _
      · exact List.sublist_append_left _ _
      · rw [List.reverse_cons]
    have hrest := (ih (normalStep met c)).trans (hstep.append_right rest)
    rwa [List.append_assoc] at hrest

theorem map_text_ofName (names : List Name) :
    (names.map Component.ofName).map Component.text = names := by
  have hname (name : Name) : (Component.ofName name).text = name := by
    unfold Component.ofName
    split
    · rename_i hdotDot
      exact (eq_of_beq hdotDot).symm
    · rfl
  rw [List.map_map]
  exact (List.map_congr_left fun name _ => hname name).trans (List.map_id names)

theorem names_sublist (p : Path) : p.names.Sublist p.stepNames := by
  refine List.monotone_filter_right _ fun name hname => ?_
  rw [isBlank, Bool.not_or, Bool.and_eq_true] at hname
  exact hname.1

theorem named_of_mem_names {n : Name} (h : n ∈ p.names) : n ≠ [] ∧ n ≠ dotName ∧ slash ∉ n := by
  obtain ⟨hsegment, hnonblank⟩ := List.mem_filter.1 h
  have hblank : ¬isBlank n = true := by simpa using hnonblank
  refine ⟨?_, ?_, slash_not_mem_of_mem_segments hsegment⟩
  · rintro rfl
    exact hblank rfl
  · rintro rfl
    exact hblank rfl

theorem steps_toPath_names (p : Path) : (Location.toPath p.names).steps = p.names :=
  steps_toPath fun _ hn => ⟨(named_of_mem_names hn).1, (named_of_mem_names hn).2.2⟩

end Path

namespace Place

variable {place there : Place} {name : Name}

/-- The components of the way from the root to a place, the last one first. -/
def met (place : Place) : List Path.Component :=
  place.trail.map (fun step => .normal step.1) ++ [.root]

theorem met_child (h : place.child? name = some there) : there.met = .normal name :: place.met := by
  obtain ⟨node, -, rfl⟩ := child?_eq_some.1 h
  rfl

theorem met_parent (place : Place) : place.parent.met = Path.normalStep place.met .parent := by
  obtain ⟨node, trail⟩ := place
  cases trail with
  | nil => rfl
  | cons step outer => rfl

theorem reverse_met (place : Place) : place.met.reverse = .root :: place.location.map .normal := by
  rw [met, List.reverse_append, location, List.map_reverse, List.map_map]
  rfl

end Place

namespace FileSystem

variable {fs : FileSystem} {here place : Place} {steps : List Name} {budget : Nat} {p q : Path}
  {follow : Bool} {l : Location} {node : Node}

/-- No prefix of a path, the path itself included, names a link. -/
def LinkFree (fs : FileSystem) (p : Path) : Prop :=
  ∀ q, p.startsWith q = true → ∀ l target, fs.find q false ≠ .ok (l, .link target)

/-- No name among the steps, as they are taken from `here`, is the name of a link. -/
def NamesNoLink (fs : FileSystem) (budget : Nat) (here : Place) (steps : List Name) : Prop :=
  ∀ front name there, front ++ [name] <+: steps → Named name →
    fs.walk false budget here (front ++ [name]) = .ok (.occupied there) → there.node.kind ≠ .link

theorem NamesNoLink.tail {there : Place} {step : Name} {rest : List Name}
    (h : fs.NamesNoLink budget here (step :: rest))
    (hstep : ∀ more, fs.walk false budget here (step :: more) = fs.walk false budget there more) :
    fs.NamesNoLink budget there rest := by
  intro front name place hinit hname hwalk
  refine h (step :: front) name place (List.cons_prefix_cons.2 ⟨rfl, hinit⟩) hname ?_
  rwa [List.cons_append, hstep]

/-- Steps that meet no link do to the way of a place what they do to components. -/
theorem NamesNoLink.met_eq (hlinks : fs.NamesNoLink budget here steps)
    (hwalk : fs.walk true budget here steps = .ok (.occupied place)) :
    place.met = ((steps.filter (· != Path.dotName)).map Path.Component.ofName).foldl
      Path.normalStep here.met := by
  induction budget, here, steps using fs.walk_induct with
  | done budget here =>
    rw [walk] at hwalk
    cases hwalk
    rfl
  | dot budget here rest hdir ih =>
    rw [walk_dot hdir] at hwalk
    rw [List.filter_cons_of_neg (by simp)]
    exact ih (hlinks.tail fun more => walk_dot hdir false budget more) hwalk
  | dotDot budget here rest hdir ih =>
    rw [walk_dotDot hdir] at hwalk
    have hstep : Path.Component.ofName Path.dotDotName = .parent := by decide
    rw [List.filter_cons_of_pos (by decide), List.map_cons, List.foldl_cons, hstep,
      ← Place.met_parent]
    exact ih (hlinks.tail fun more => walk_dotDot hdir false budget more) hwalk
  | long budget here step rest hdir hdot hdotDot hlong =>
    rw [walk_long hdir hdot hdotDot hlong] at hwalk
    cases hwalk
  | missing budget here step rest hdir hstep hchild =>
    rw [walk_missing hdir hstep hchild] at hwalk
    split at hwalk <;> cases hwalk
  | link budget here step rest there target hdir hstep hchild hlink ih =>
    -- the steps up to here lead to the link
    have hlast : fs.walk false budget here [step] = .ok (.occupied there) := by
      rw [walk_last hdir hstep, hchild]
    refine absurd ?_ (hlinks [] step there ⟨rest, rfl⟩ hstep hlast)
    rw [hlink]
    rfl
  | node budget here step rest there hdir hstep hchild hlink ih =>
    rw [walk_node hdir hstep hchild hlink] at hwalk
    have hname : Path.Component.ofName step = .normal step := by
      simp [Path.Component.ofName, hstep.ne_dotDot]
    have hpush : Path.normalStep here.met (.normal step) = .normal step :: here.met := by
      simp [Path.normalStep]
    rw [List.filter_cons_of_pos (by simpa using hstep.ne_dot), List.map_cons, List.foldl_cons, hname,
      hpush, ← Place.met_child hchild]
    exact ih (hlinks.tail fun more => walk_node hdir hstep hchild hlink false budget more) hwalk
  | blocked budget here step rest hblocked =>
    rw [walk_not_directory hblocked] at hwalk
    cases hwalk

theorem start_of_isAbsolute (hp : p.isAbsolute = true) : fs.start p = .ok fs.rootPlace := by
  simp [start, hp]

/-- A name on the way of a path ends a path that starts with the same components. -/
theorem LinkFree.namesNoLink (hlinks : fs.LinkFree p) (hp : p.isAbsolute = true)
    (hcheck : checkPath p = .ok ()) : fs.NamesNoLink maxLinks fs.rootPlace p.steps := by
  intro front name there hinit hname hwalk
  have hstepNames : front ++ [name] <+: p.stepNames := by
    rcases p.steps_eq with h | h
    · rwa [h] at hinit
    · -- the step that a last separator adds has no name
      rw [h, List.prefix_concat_iff] at hinit
      refine hinit.resolve_left fun heq => ?_
      exact hname.ne_dot (by simpa using (List.append_inj' heq rfl).2)
  have hnames : ∀ n ∈ front ++ [name], n ≠ [] ∧ Path.slash ∉ n := by
    intro n hn
    obtain ⟨hsegment, hnonempty⟩ := List.mem_filter.1 (hstepNames.subset hn)
    exact ⟨by simpa using hnonempty, Path.slash_not_mem_of_mem_segments hsegment⟩
  have hsteps := Path.steps_toPath hnames
  have habsolute : (Location.toPath (front ++ [name])).isAbsolute = true := rfl
  intro hkind
  obtain ⟨target, htarget⟩ := Node.exists_of_kind_link hkind
  refine hlinks (Location.toPath (front ++ [name])) ?_ there.location target ?_
  · rw [Path.startsWith, List.isPrefixOf_iff_prefix, Path.components_of_isAbsolute habsolute,
      Path.components_of_isAbsolute hp, Path.names_eq_filter, Path.names_eq_filter, hsteps]
    exact List.cons_prefix_cons.2 ⟨rfl, (hinit.filter _).map _⟩
  · refine find_eq_ok.2 ⟨there, locate_eq_ok.2 ⟨?_, _, start_of_isAbsolute habsolute, ?_⟩, rfl,
      htarget⟩
    · exact Path.checkPath_toPath hp hcheck hstepNames.sublist
    · rwa [hsteps]

theorem LinkFree.find_true (hlinks : fs.LinkFree p) (h : fs.find p follow = .ok (l, node)) :
    fs.find p true = .ok (l, node) ∧ node.kind ≠ .link := by
  have hself : p.startsWith p = true := List.isPrefixOf_iff_prefix.2 (List.prefix_refl _)
  have hfalse : fs.find p false = .ok (l, node) := by
    cases follow with
    | false => exact h
    | true =>
      refine (find_true_cases h).resolve_right ?_
      rintro ⟨l', target, hlink⟩
      exact hlinks p hself l' target hlink
  have hkind : node.kind ≠ .link := by
    intro hkind
    obtain ⟨target, rfl⟩ := Node.exists_of_kind_link hkind
    exact hlinks p hself l target hfalse
  exact ⟨find_true_of_ne_link hfalse hkind, hkind⟩

/-- Of a path that meets no link the names are left on the way to the place it leads to. -/
theorem LinkFree.settled_eq (hlinks : fs.LinkFree p) (hp : p.isAbsolute = true)
    (h : fs.find p follow = .ok (l, node)) : p.settled = .root :: l.map .normal := by
  obtain ⟨hcheck, here, place, hstart, hwalk, rfl, -⟩ := find_walk (hlinks.find_true h).1
  obtain rfl : fs.rootPlace = here := Except.ok.inj ((start_of_isAbsolute hp).symm.trans hstart)
  have hmet := (hlinks.namesNoLink hp hcheck).met_eq hwalk
  have hroot : Place.met fs.rootPlace = Path.normalStep [] .root := rfl
  rw [Path.settled, Path.components_of_isAbsolute hp, Path.names_eq_filter, List.foldl_cons,
    ← hroot, ← hmet, Place.reverse_met]

theorem LinkFree.normalize_eq (hlinks : fs.LinkFree p) (hp : p.isAbsolute = true)
    (h : fs.find p follow = .ok (l, node)) : p.normalize = l.toPath := by
  rw [Path.normalize_eq_settled, hlinks.settled_eq hp h]
  cases l with
  | nil => rfl
  | cons name rest =>
    rw [Path.ofComponents_of_ne (by simp) (by simp), List.map_cons, Path.map_text_normal]
    rfl

theorem LinkFree.sublist_stepNames (hlinks : fs.LinkFree p) (hp : p.isAbsolute = true)
    (h : fs.find p follow = .ok (l, node)) : l.Sublist p.stepNames := by
  have hleft : p.settled.Sublist p.components := Path.reverse_foldl_sublist p.components []
  rw [hlinks.settled_eq hp h, Path.components_of_isAbsolute hp, List.cons_sublist_cons] at hleft
  have hnames := hleft.map Path.Component.text
  rw [Path.map_text_normal, Path.map_text_ofName] at hnames
  exact hnames.trans p.names_sublist

/-- A place in the tree is where its own path leads, if that can be looked up. -/
theorem find_toPath (hget : fs.get? l = some node) (hcheck : checkPath l.toPath = .ok ()) :
    fs.find l.toPath false = .ok (l, node) := by
  have hsteps : l.toPath.steps = l := by
    refine Path.steps_toPath fun n hn => ?_
    have hlegal := List.all_eq_true.1 (legal_of_get? hget) n hn
    have hordinary := Path.ordinary_of_isLegalName hlegal
    exact ⟨hordinary.ne_nil, hordinary.slash_not_mem⟩
  have hroot : fs.Placed fs.rootPlace := .root
  obtain ⟨place, hwalk, hlocation⟩ := walk_below hroot hget maxLinks
  have hl : place.location = l := hlocation
  have hnode : fs.get? place.location = some place.node :=
    Placed.get?_location (Placed.root.walk hwalk)
  rw [hl, hget] at hnode
  refine find_eq_ok.2 ⟨place, locate_eq_ok.2 ⟨hcheck, _, start_of_isAbsolute rfl, ?_⟩, hl,
    (Option.some.inj hnode).symm⟩
  rwa [hsteps]

theorem LinkFree.find_normalize (hlinks : fs.LinkFree p) (hp : p.isAbsolute = true)
    (h : fs.find p follow = .ok (l, node)) (links : Bool) :
    fs.find p.normalize links = .ok (l, node) := by
  have hcheck : checkPath l.toPath = .ok () :=
    Path.checkPath_toPath hp (find_walk h).1 (hlinks.sublist_stepNames hp h)
  have hplace := find_toPath (get?_of_find h) hcheck
  rw [hlinks.normalize_eq hp h]
  cases links with
  | false => exact hplace
  | true => exact find_true_of_ne_link hplace (hlinks.find_true h).2

/-- The path through the names of a path leads to the same, unless it asked for a directory. -/
theorem find_toPath_names (hp : p.isAbsolute = true) (h : fs.find p false = .ok (l, node))
    (hkind : node.kind ≠ .directory) :
    fs.find (Location.toPath p.names) false = fs.find p false := by
  have hcheck := (find_walk h).1
  have hsteps := p.steps_toPath_names
  have hnames : (Location.toPath p.names).names = p.names := by
    rw [Path.names_eq_filter, hsteps, List.filter_eq_self]
    exact fun n hn => bne_iff_ne.2 (Path.named_of_mem_names hn).2.1
  have hlast : (Location.toPath p.names).steps.getLast? ≠ some Path.dotName := by
    rw [hsteps]
    exact fun heq => (Path.named_of_mem_names (List.mem_of_getLast? heq)).2.1 rfl
  have hcheck' := Path.checkPath_toPath hp hcheck p.names_sublist
  rw [find, find, locate_eq_of_names hcheck' hcheck hlast (getLast?_steps_of_find h hkind) hp.symm
    hnames]

/-- Whether a path meets a link shows in the kinds of what is found under its first names. -/
theorem linkFree_of_kinds (hp : p.isAbsolute = true)
    (h : .ok .link ∉ p.names.inits.map fun front =>
      (fs.find (Location.toPath front) false).map (·.2.kind)) : fs.LinkFree p := by
  intro q hq l target hfind
  have hcomponents := List.isPrefixOf_iff_prefix.1 hq
  rw [Path.components_of_isAbsolute hp] at hcomponents
  have habsolute : q.isAbsolute = true := by
    have hsome : q.components ≠ [] := fun hnil =>
      Rules.bytes_ne_nil_of_find hfind (Path.bytes_eq_nil_of_components hnil)
    obtain ⟨c, rest, hc⟩ := List.exists_cons_of_ne_nil hsome
    rw [hc, List.cons_prefix_cons] at hcomponents
    by_contra hrelative
    refine Path.root_not_mem_of_relative (Bool.eq_false_of_not_eq_true hrelative) ?_
    rw [hc, hcomponents.1]
    exact List.mem_cons_self
  rw [Path.components_of_isAbsolute habsolute, List.cons_prefix_cons] at hcomponents
  have hnames := hcomponents.2.map Path.Component.text
  rw [Path.map_text_ofName, Path.map_text_ofName] at hnames
  have hplace := find_toPath_names habsolute hfind (by simp [Node.kind])
  refine h (List.mem_map.2 ⟨q.names, (List.mem_inits _ _).2 hnames, ?_⟩)
  rw [hplace, hfind]
  rfl

/-- Where no link is met, the normal form of an absolute path leads to the node that the path leads
to. So among such paths the normal form stands for the node: those to one node have one normal form,
and those of one normal form lead to one node. -/
theorem normal_form_leads_to_node (hp : p.isAbsolute = true) (hlinks : fs.LinkFree p)
    (h : fs.find p follow = .ok (l, node)) :
    (∀ links, fs.find p.normalize links = .ok (l, node)) ∧
      ∀ q links l' node', q.isAbsolute = true → fs.LinkFree q →
        fs.find q links = .ok (l', node') →
          (p.normalize = q.normalize ↔ l = l') ∧ (l = l' → node = node') := by
  refine ⟨hlinks.find_normalize hp h, ?_⟩
  intro q links l' node' hq hlinks' h'
  constructor
  · constructor
    · intro heq
      have hfind := hlinks.find_normalize hp h true
      rw [heq, hlinks'.find_normalize hq h' true] at hfind
      cases hfind
      rfl
    · rintro rfl
      rw [hlinks.normalize_eq hp h, hlinks'.normalize_eq hq h']
  · rintro rfl
    exact Option.some.inj ((get?_of_find h).symm.trans (get?_of_find h'))

/-- A file with two ways to it, through a directory beside it and past the root; a link that stands
beside them is on neither. -/
def besideLinkTree : FileSystem :=
  .ofEntries 1
    [(.ofString "pkg", .directory 0o755
      [(.ofString "o.zip", .ofBytes 0 [0x6B]), (.ofString "src", .directory 0o755 []),
        (.ofString "x", .link (.ofString "src"))])]
    (by cbv)

theorem normal_form_leads_to_node_beside_link :
    let p := Path.ofString "/pkg/src/.././o.zip"
    let q := Path.ofString "/../pkg//o.zip"
    let l := [Name.ofString "pkg", Name.ofString "o.zip"]
    besideLinkTree.LinkFree p ∧ besideLinkTree.LinkFree q ∧
      besideLinkTree.find p false = .ok (l, .ofBytes 0 [0x6B]) ∧
      besideLinkTree.find q true = .ok (l, .ofBytes 0 [0x6B]) ∧
      (∀ links, besideLinkTree.find p.normalize links = .ok (l, .ofBytes 0 [0x6B])) ∧
      p.normalize = q.normalize := by
  have hp : besideLinkTree.find (.ofString "/pkg/src/.././o.zip") false =
      .ok ([.ofString "pkg", .ofString "o.zip"], .ofBytes 0 [0x6B]) := by cbv
  have hq : besideLinkTree.find (.ofString "/../pkg//o.zip") true =
      .ok ([.ofString "pkg", .ofString "o.zip"], .ofBytes 0 [0x6B]) := by cbv
  have hlinks : besideLinkTree.LinkFree (.ofString "/pkg/src/.././o.zip") := by
    have hkinds : ((Path.names (.ofString "/pkg/src/.././o.zip")).inits.map fun front =>
        (besideLinkTree.find (Location.toPath front) false).map (·.2.kind)) =
          [.ok .directory, .ok .directory, .ok .directory, .ok .directory, .ok .file] := by cbv
    refine linkFree_of_kinds (by cbv) ?_
    rw [hkinds]
    simp
  have hlinks' : besideLinkTree.LinkFree (.ofString "/../pkg//o.zip") := by
    have hkinds : ((Path.names (.ofString "/../pkg//o.zip")).inits.map fun front =>
        (besideLinkTree.find (Location.toPath front) false).map (·.2.kind)) =
          [.ok .directory, .ok .directory, .ok .directory, .ok .file] := by cbv
    refine linkFree_of_kinds (by cbv) ?_
    rw [hkinds]
    simp
  obtain ⟨hnormal, hsame⟩ := normal_form_leads_to_node (by cbv) hlinks hp
  exact ⟨hlinks, hlinks', hp, hq, hnormal, (hsame _ _ _ _ (by cbv) hlinks' hq).1.2 rfl⟩

end FileSystem

end TreeArchive
