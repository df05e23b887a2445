import TreeArchive.Proofs.LeftOut
import TreeArchive.Proofs.Lexical
import TreeArchive.Proofs.OwnOutput
import TreeArchive.Proofs.Reopened

/-!
Changes below a directory, seen from elsewhere. Where there are no links, names below a path lead
below its location, and a path without `..` leads where its names say; so neither is touched by a
change below a directory that they do not come to.
-/
namespace TreeArchive

theorem Node.pos_countIn_of_lookup {test : Node → Bool} {entries : List (Name × Node)}
    {name : Name} {node : Node} (h : entries.lookup name = some node) (htest : test node = true) :
    0 < countIn test entries := by
  induction entries with
  | nil => simp at h
  | cons e rest ih =>
    obtain ⟨k, inner⟩ := e
    rw [List.lookup_cons] at h
    rw [countIn]
    split at h
    · cases h
      rw [if_pos htest]
      omega
    · have := ih h
      omega

theorem Path.dotDotName_not_mem_steps {p : Path} (hp : .parent ∉ p.components) :
    dotDotName ∉ p.steps := by
  intro hmem
  have hname : dotDotName ∈ p.names := by
    rw [names_eq_filter]
    exact List.mem_filter.2 ⟨hmem, by decide⟩
  exact (ordinary_of_mem_names hp hname).ne_dotDot rfl

namespace FileSystem

/-- No node of the tree is a link. -/
def NoLinks (fs : FileSystem) : Prop :=
  ∀ l target, fs.get? l ≠ some (.link target)

/-- Two file systems that are the same but for what stands strictly below a location. -/
structure ChangedBelow (fs fs' : FileSystem) (l : Location) : Prop where
  workingDirectory : fs'.workingDirectory = fs.workingDirectory
  shell : ∀ other, (l <+: other → other = l) →
    (fs'.get? other).map Node.shell = (fs.get? other).map Node.shell

/-- Where a path leads if each of its names is a step down. -/
def spelled (fs : FileSystem) (p : Path) : Location :=
  (if p.isAbsolute then [] else fs.workingDirectory) ++ p.names

/-- A path stands where its names say; if it goes up on its way, it stands where it leads. -/
def StandsAt (fs : FileSystem) (p : Path) (l : Location) : Prop :=
  if .parent ∈ p.components then fs.LeadsTo p l else l = fs.spelled p

/-- A location comes after a path below a source, both taken name by name from the root. -/
def ComesAfter (fs : FileSystem) (source p : Path) (l : Location) : Prop :=
  ∀ base names, fs.StandsAt source base →
    p.components = source.components ++ names.map .normal → base ++ names < l

variable {fs fs' : FileSystem} {l there base : Location} {p : Path} {here place : Place}
  {node : Node}

section NoLinks

theorem noLinks_of_count (h : fs.root.count (·.kind == .link) = 0) : fs.NoLinks := by
  intro l target hget
  rw [get?] at hget
  rcases List.eq_nil_or_concat' l with rfl | ⟨front, name, rfl⟩
  · have hroot := fs.rooted
    rw [Option.some.inj hget] at hroot
    cases hroot
  · -- the directory that holds the link counts it
    rw [Node.get?_concat] at hget
    obtain ⟨directory, hdirectory, hchild⟩ := Option.bind_eq_some_iff.1 hget
    obtain ⟨mode, entries, rfl⟩ := Node.exists_of_child? hchild
    have hpos : 0 < Node.countIn (·.kind == .link) entries := Node.pos_countIn_of_lookup hchild rfl
    have hle : Node.count (·.kind == .link) (.directory mode entries) ≤
        fs.root.count (·.kind == .link) := Node.count_get?_le hdirectory
    rw [Node.count] at hle
    omega

theorem NoLinks.kind_ne (hlinks : fs.NoLinks) (hget : fs.get? l = some node) :
    node.kind ≠ .link := by
  intro hkind
  obtain ⟨target, rfl⟩ := Node.exists_of_kind_link hkind
  exact hlinks l target hget

theorem NoLinks.find_eq (hlinks : fs.NoLinks) (p : Path) : fs.find p false = fs.find p true := by
  rcases fs.find_follow p with ⟨l, node, hfind, hkind⟩ | hfind
  · exact absurd hkind (hlinks.kind_ne (get?_of_find hfind))
  · exact hfind.symm

/-- Steps that do not go up come to nothing but what is on the straight way down. -/
theorem NoLinks.stops_prefix (hlinks : fs.NoLinks) (hhere : fs.Placed here) {budget : Nat}
    {steps : List Name} (hsteps : Path.dotDotName ∉ steps) :
    ∀ stop ∈ fs.stops budget here steps,
      stop <+: here.location ++ steps.filter (· != Path.dotName) := by
  induction budget, here, steps using fs.walk_induct with
  | done budget here => simp [stops]
  | dot budget here rest hdir ih =>
    rw [stops_dot hdir]
    simpa using ih hhere (fun hmem => hsteps (List.mem_cons_of_mem _ hmem))
  | dotDot budget here rest hdir ih => exact absurd List.mem_cons_self hsteps
  | long budget here step rest hdir hdot hdotDot hlong =>
    simp [stops_long hdir hdot hdotDot hlong]
  | missing budget here step rest hdir hstep hchild => simp [stops_missing hdir hstep hchild]
  | link budget here step rest there target hdir hstep hchild hlink ih =>
    have hget := (hhere.child hchild).get?_location
    rw [hlink] at hget
    exact absurd hget (hlinks _ _)
  | node budget here step rest there hdir hstep hchild hlink ih =>
    have hlocation := Place.location_of_child? hchild
    have hfilter : here.location ++ (step :: rest).filter (· != Path.dotName) =
        there.location ++ rest.filter (· != Path.dotName) := by
      simp [hlocation, hstep.ne_dot]
    rw [stops_node hdir hstep hchild hlink, List.forall_mem_cons, hfilter]
    exact ⟨List.prefix_append _ _,
      ih (hhere.child hchild) fun hmem => hsteps (List.mem_cons_of_mem _ hmem)⟩
  | blocked budget here step rest hblocked => simp [stops_not_directory hblocked]

/-- Steps that do not go up lead straight down. -/
theorem NoLinks.location_of_walk (hlinks : fs.NoLinks) (hhere : fs.Placed here) {budget : Nat}
    {steps : List Name} (hsteps : Path.dotDotName ∉ steps)
    (hwalk : fs.walk true budget here steps = .ok (.occupied place)) :
    place.location = here.location ++ steps.filter (· != Path.dotName) := by
  induction budget, here, steps using fs.walk_induct with
  | done budget here =>
    rw [walk] at hwalk
    cases hwalk
    simp
  | dot budget here rest hdir ih =>
    rw [walk_dot hdir] at hwalk
    simpa using ih hhere (fun hmem => hsteps (List.mem_cons_of_mem _ hmem)) hwalk
  | dotDot budget here rest hdir ih => exact absurd List.mem_cons_self hsteps
  | long budget here step rest hdir hdot hdotDot hlong =>
    rw [walk_long hdir hdot hdotDot hlong] at hwalk
    cases hwalk
  | missing budget here step rest hdir hstep hchild =>
    rw [walk_missing hdir hstep hchild] at hwalk
    split at hwalk <;> cases hwalk
  | link budget here step rest there target hdir hstep hchild hlink ih =>
    have hget := (hhere.child hchild).get?_location
    rw [hlink] at hget
    exact absurd hget (hlinks _ _)
  | node budget here step rest there hdir hstep hchild hlink ih =>
    rw [walk_node hdir hstep hchild hlink] at hwalk
    have hrest := ih (hhere.child hchild) (fun hmem => hsteps (List.mem_cons_of_mem _ hmem)) hwalk
    simp [hrest, Place.location_of_child? hchild, hstep.ne_dot]
  | blocked budget here step rest hblocked =>
    rw [walk_not_directory hblocked] at hwalk
    cases hwalk

theorem NoLinks.avoids (hlinks : fs.NoLinks) (hp : .parent ∉ p.components)
    (hl : ¬l <+: fs.spelled p) : fs.Avoids p l := by
  intro stop hstop hinit
  apply hl (hinit.trans _)
  rw [spelled, Path.names_eq_filter]
  rcases List.mem_cons.1 hstop with rfl | hstop
  · exact List.prefix_append _ _
  · cases hstart : fs.start p with
    | error e =>
      rw [hstart] at hstop
      cases hstop
    | ok here =>
      rw [hstart] at hstop
      rw [← location_of_start hstart]
      exact hlinks.stops_prefix (placed_of_start hstart) (Path.dotDotName_not_mem_steps hp) stop
        hstop

theorem NoLinks.spelled_of_leadsTo (hlinks : fs.NoLinks) (hp : .parent ∉ p.components)
    (hleads : fs.LeadsTo p l) : l = fs.spelled p := by
  obtain ⟨node, hfind⟩ := hleads
  obtain ⟨place, hlocate, rfl, -⟩ := find_eq_ok.1 hfind
  obtain ⟨-, here, hstart, hwalk⟩ := locate_eq_ok.1 hlocate
  rw [spelled, Path.names_eq_filter, ← location_of_start hstart]
  exact hlinks.location_of_walk (placed_of_start hstart) (Path.dotDotName_not_mem_steps hp) hwalk

theorem bytes_below_ne_nil (hp : p.bytes ≠ []) {front : List Name}
    (hlegal : ∀ n ∈ front, isLegalName n = true) : (p.below front).bytes ≠ [] := by
  cases front with
  | nil => exact hp
  | cons name rest =>
    apply Path.bytes_below_ne_nil (List.cons_ne_nil name rest)
    intro n hn
    exact Path.ordinary_of_isLegalName (hlegal n hn)

/-- Names below a path lead below its location. -/
theorem NoLinks.location_below (hlinks : fs.NoLinks) (hp : p.bytes ≠ []) {front : List Name}
    (hlegal : ∀ n ∈ front, isLegalName n = true)
    (hfind : fs.find (p.below front) true = .ok (there, node)) :
    ∃ base, fs.LeadsTo p base ∧ there = base ++ front := by
  -- from the path down, as the last name is an entry of what the others lead to
  induction front using List.reverseRecOn generalizing there node with
  | nil => exact ⟨there, ⟨node, hfind⟩, (List.append_nil there).symm⟩
  | append_singleton front name ih =>
    obtain ⟨hfront, hname⟩ := List.forall_mem_append.1 hlegal
    rw [Path.below_concat, ← hlinks.find_eq] at hfind
    obtain ⟨-, outer, mode, nodes, houter, -, rfl⟩ :=
      (find_child (hname name List.mem_cons_self) (bytes_below_ne_nil hp hfront)).1 hfind
    obtain ⟨base, hbase, rfl⟩ := ih hfront houter
    exact ⟨base, hbase, List.append_assoc base front [name]⟩

end NoLinks

theorem comesAfter_below {names : List Name} (hstands : ∀ there, fs.StandsAt p there → there = base)
    (hlegal : ∀ n ∈ names, isLegalName n = true) (hlt : base ++ names < l) :
    fs.ComesAfter p (p.below names) l := by
  intro there back hthere hcomponents
  rw [Path.components_below fun n hn => Path.ordinary_of_isLegalName (hlegal n hn)] at hcomponents
  obtain rfl : names = back := List.map_injective_iff.2 (fun _ _ => Path.Component.normal.inj)
    (List.append_cancel_left hcomponents)
  rwa [hstands there hthere]

section ChangedBelow

theorem SameElsewhere.changedBelow {name : Name} {rest : Location}
    (h : fs.SameElsewhere fs' (l ++ name :: rest)) : fs.ChangedBelow fs' l where
  workingDirectory := h.workingDirectory
  shell := by
    intro other hother
    apply h.shell other
    intro hinit
    obtain rfl := hother ((List.prefix_append l (name :: rest)).trans hinit)
    have := hinit.length_le
    simp at this

theorem ChangedBelow.nothingAdded (h : fs.ChangedBelow fs' l) (hl : l ≠ []) :
    fs.NothingAdded fs' l where
  same := ⟨h.workingDirectory, fun other hother => h.shell other fun hinit => absurd hinit hother⟩
  ne_nil := hl
  free := by
    intro hnone
    have hshell := h.shell l fun _ => rfl
    rw [hnone] at hshell
    exact Option.map_eq_none_iff.1 hshell

end ChangedBelow

end FileSystem

end TreeArchive
