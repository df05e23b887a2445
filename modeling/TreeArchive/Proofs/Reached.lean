import TreeArchive.Proofs.RelativeForm
import TreeArchive.Proofs.Resolution
import TreeArchive.Proofs.Traversal

/-!
Which directories a walk gets to and which files it finds, said without a walk: in terms of names
below the source and of where the paths through them lead.
-/
namespace TreeArchive

open FileSystem

theorem Node.lookup_of_mem {entries : List (Name × Node)} {name : Name} {node : Node}
    (hdistinct : (entries.map Prod.fst).Nodup) (h : (name, node) ∈ entries) :
    entries.lookup name = some node := by
  obtain ⟨front, back, rfl⟩ := List.append_of_mem h
  refine List.lookup_eq_some_iff.2 ⟨front, back, rfl, ?_⟩
  intro e he
  rw [List.map_append, List.nodup_append] at hdistinct
  have hne := hdistinct.2.2 e.1 (List.mem_map_of_mem he) name (by simp)
  simpa using hne.symm

theorem FileSystem.get?_concat_of_directory {fs : FileSystem} {here : Location} {mode : Nat}
    {nodes : List (Name × Node)} (h : fs.get? here = some (.directory mode nodes)) (name : Name) :
    fs.get? (here ++ [name]) = nodes.lookup name := by
  rw [get?] at h
  rw [get?, Node.get?_concat, h, Option.bind_some]
  rfl

/-- The directories below the source that a walk gets to, with the locations of the directories
that are open there, the innermost first. A link to a directory is entered only where links are
followed and none of the open directories is its target. -/
inductive Settings.Reached (s : Settings) (fs : FileSystem) : List Name → List Location → Prop where
  | source {l : Location} {mode : Nat} {nodes : List (Name × Node)}
      (h : fs.find s.source true = .ok (l, .directory mode nodes)) : Reached s fs [] [l]
  | directory {names : List Name} {opened : List Location} {name : Name} {l : Location} {mode : Nat}
      {nodes : List (Name × Node)} (outer : Reached s fs names opened)
      (legal : isLegalName name = true)
      (h : fs.find (s.source.below (names ++ [name])) false =
        .ok (l, .directory mode nodes)) :
      Reached s fs (names ++ [name]) (l :: opened)
  | link {names : List Name} {opened : List Location} {name : Name} {l here : Location}
      {target : Path} {mode : Nat} {nodes : List (Name × Node)} (outer : Reached s fs names opened)
      (legal : isLegalName name = true) (followed : s.followLinks = true)
      (hlink : fs.find (s.source.below (names ++ [name])) false = .ok (here, .link target))
      (h : fs.find (s.source.below (names ++ [name])) true =
        .ok (l, .directory mode nodes))
      (noLoop : l ∉ opened) :
      Reached s fs (names ++ [name]) (l :: opened)

/-- The last of some names stands in a directory that a walk gets to by the others. -/
def Settings.Listed (s : Settings) (fs : FileSystem) (names : List Name) : Prop :=
  ∃ front name opened, names = front ++ [name] ∧ isLegalName name = true ∧
    s.Reached fs front opened

theorem Settings.Reached.legal {s : Settings} {fs : FileSystem} {names : List Name}
    {opened : List Location} (h : s.Reached fs names opened) :
    ∀ n ∈ names, isLegalName n = true := by
  induction h with
  | source h => exact List.forall_mem_nil _
  | directory outer hname h ih =>
    exact List.forall_mem_append.2 ⟨ih, List.forall_mem_singleton.2 hname⟩
  | link outer hname followed hlink h noLoop ih =>
    exact List.forall_mem_append.2 ⟨ih, List.forall_mem_singleton.2 hname⟩

theorem Settings.Listed.legal {s : Settings} {fs : FileSystem} {names : List Name}
    (h : s.Listed fs names) : ∀ n ∈ names, isLegalName n = true := by
  obtain ⟨front, name, opened, rfl, hname, hreached⟩ := h
  exact List.forall_mem_append.2 ⟨hreached.legal, List.forall_mem_singleton.2 hname⟩

theorem Settings.Listed.ne_nil {s : Settings} {fs : FileSystem} {names : List Name}
    (h : s.Listed fs names) : names ≠ [] := by
  obtain ⟨front, name, opened, rfl, -⟩ := h
  simp

namespace Rules

/-- Neither a path below the source nor a directory on the way to it is left out. -/
def Visible (r : Rules) (names : List Name) : Prop :=
  ∀ front, front ≠ [] → front <+: names → r.keeps (r.settings.source.below front) = true

/-- A file below the source that a walk finds under some names. -/
structure Found (r : Rules) (fs : FileSystem) (names : List Name) (data : FileData) : Prop where
  listed : r.settings.Listed fs names
  visible : r.Visible names
  file : ∃ l, fs.find (r.settings.source.below names) true = .ok (l, .file data)

/-- What a walk yields for a file. -/
def itemOf (r : Rules) (names : List Name) (data : FileData) : Except Failure Entry :=
  let p := r.settings.source.below names
  (RelativePath.fromRoot p r.settings.root).map fun relative => ⟨p, relative, data.content.size⟩

/-- The item of a file is an entry if the file's path has a relative form. -/
theorem ok_eq_itemOf {r : Rules} {names : List Name} {data : FileData} {e : Entry} :
    .ok e = r.itemOf names data ↔
      RelativePath.fromRoot (r.settings.source.below names) r.settings.root = .ok e.relative ∧
        e.path = r.settings.source.below names ∧ e.size = data.content.size := by
  obtain ⟨path, relative, size⟩ := e
  unfold itemOf
  cases hrelative : RelativePath.fromRoot (r.settings.source.below names) r.settings.root with
  | ok found => simp [hrelative, Except.map, and_left_comm, eq_comm]
  | error f => simp [hrelative, Except.map]

/-- A failure of the walk itself: of a lookup, of a listing or of a followed link. -/
def IsFault (i : Except Failure Entry) : Prop :=
  ∃ p e, i = .error (.walk p e)

theorem not_isFault_ok (e : Entry) : ¬IsFault (.ok e) := by
  rintro ⟨p, f, h⟩
  cases h

/-- Paths of open directories with their locations. -/
def Opened (fs : FileSystem) (paths : List Path) (locations : List Location) : Prop :=
  List.Forall₂ (fun p l => ∃ node, fs.find p true = .ok (l, node)) paths locations

/-- A node as a listing gives it. -/
structure AsListed (fs : FileSystem) (v : Visit) : Prop where
  unfollowed : v.followed = false
  kind : ∀ l node, fs.find v.path false = .ok (l, node) → node.kind = v.kind

variable {r : Rules} {fs : FileSystem} {names : List Name} {paths : List Path}
  {opened : List Location} {v : Visit} {p : Path}

theorem visible_nil : r.Visible [] := by
  intro front hne hinit
  exact absurd (List.prefix_nil.1 hinit) hne

theorem visible_concat {name : Name} : r.Visible (names ++ [name]) ↔
    r.Visible names ∧ r.keeps (r.settings.source.below (names ++ [name])) = true := by
  constructor
  · intro h
    refine ⟨fun front hne hinit => h front hne (hinit.trans (List.prefix_append _ _)), ?_⟩
    exact h _ (by simp) (List.prefix_refl _)
  · rintro ⟨hnames, hkept⟩ front hne hinit
    rcases List.prefix_concat_iff.1 hinit with rfl | hinit
    · exact hkept
    · exact hnames front hne hinit

theorem keeps_eq_true : r.keeps p = true ↔ (∀ q ∈ r.skipped, p.normalize ≠ q) ∧
    ∀ relative, RelativePath.fromRoot p r.settings.root = .ok relative →
      r.exclusions.excludes relative = false := by
  have hskipped :
      (!r.skipped.any (· == p.normalize)) = true ↔ ∀ q ∈ r.skipped, p.normalize ≠ q := by
    rw [Bool.not_eq_true', List.any_eq_false]
    simp only [beq_iff_eq, ne_eq]
    exact forall_congr' fun q => imp_congr_right fun _ => not_congr eq_comm
  rw [keeps, Bool.and_eq_true, hskipped]
  apply and_congr_right
  intro _
  cases RelativePath.fromRoot p r.settings.root with
  | ok relative => simp
  | error f => simp

theorem checkLoop_eq_ok {child : Path} {here : Location} (h : Opened fs paths opened) :
    checkLoop fs child here paths = .ok () ↔ here ∉ opened := by
  induction h with
  | nil => simp [checkLoop]
  | @cons p l paths locations hp hrest ih =>
    obtain ⟨node, hfind⟩ := hp
    have hat : openedAt fs p = .ok l := by simp [openedAt, hfind, bind, Except.bind]
    rw [checkLoop, hat]
    by_cases heq : l = here
    · simp [heq]
    · have hne : here ≠ l := fun h => heq h.symm
      simp [heq, hne, ih]

theorem look_eq_ok {v' : Visit} (hopened : Opened fs paths opened) :
    r.look fs paths v = .ok v' ↔
      (¬(r.settings.followLinks = true ∧ v.kind = .link) ∧ v' = v) ∨
      (r.settings.followLinks = true ∧ v.kind = .link ∧ ∃ l node,
        fs.find v.path true = .ok (l, node) ∧ (node.kind = .directory → l ∉ opened) ∧
        v' = ⟨v.path, node.kind, true⟩) := by
  unfold look
  by_cases hlink : r.settings.followLinks = true ∧ v.kind = .link
  · rw [if_pos hlink]
    unfold follow
    cases hfind : fs.find v.path true with
    | error e => simp [hlink]
    | ok found =>
      obtain ⟨l, node⟩ := found
      by_cases hkind : node.kind = .directory
      · by_cases hloop : l ∈ opened
        · have hfail : checkLoop fs v.path l paths ≠ .ok () := by
            rw [ne_eq, checkLoop_eq_ok hopened]
            exact fun h => h hloop
          cases hcheck : checkLoop fs v.path l paths with
          | error f => simp [hlink, hkind, hloop, hcheck, bind, Except.bind]
          | ok u => exact absurd hcheck hfail
        · have hcheck : checkLoop fs v.path l paths = .ok () := (checkLoop_eq_ok hopened).2 hloop
          simp [hlink, hkind, hloop, hcheck, bind, Except.bind, eq_comm]
      · have hne : Kind.directory ≠ node.kind := fun h => hkind h.symm
        simp [hlink, hkind, hne, eq_comm]
  · rw [if_neg hlink]
    constructor
    · intro h
      cases h
      exact .inl ⟨hlink, rfl⟩
    · rintro (⟨-, rfl⟩ | ⟨hfollow, hkind, -⟩)
      · rfl
      · exact absurd ⟨hfollow, hkind⟩ hlink

/-- The walk goes on with the directories that it gets to by one name more. -/
theorem visit_eq_directory (hopened : Opened fs paths opened) :
    r.visit fs paths v = .directory p ↔ p = v.path ∧ r.keeps v.path = true ∧
      (v.kind = .directory ∨ r.settings.followLinks = true ∧ v.kind = .link ∧ ∃ l mode nodes,
        fs.find v.path true = .ok (l, .directory mode nodes) ∧ l ∉ opened) := by
  constructor
  · intro h
    refine ⟨eq_of_visit h, ?_⟩
    unfold visit at h
    cases hlook : r.look fs paths v with
    | error f => simp [hlook] at h
    | ok v' =>
      simp only [hlook, look_path hlook] at h
      by_cases hkeeps : r.keeps v.path = true
      · refine ⟨hkeeps, ?_⟩
        by_cases hkind : v'.kind = .directory
        · rcases (look_eq_ok hopened).1 hlook with
            ⟨-, rfl⟩ | ⟨hfollow, hlink, l, node, hfind, hloop, rfl⟩
          · exact .inl hkind
          · -- only a link that was followed has become a directory
            obtain ⟨mode, nodes, rfl⟩ := Node.exists_of_kind_directory hkind
            exact .inr ⟨hfollow, hlink, l, mode, nodes, hfind, hloop rfl⟩
        · simp only [hkeeps, hkind, if_false, Bool.not_true, Bool.false_eq_true] at h
          exact absurd h eq_of_leaf
      · simp [hkeeps] at h
  · rintro ⟨rfl, hkeeps, hentered⟩
    unfold visit
    rcases hentered with hkind | ⟨hfollow, hlink, l, mode, nodes, hfind, hloop⟩
    · have hlook : r.look fs paths v = .ok v :=
        (look_eq_ok hopened).2 (.inl ⟨fun h => by simp [h.2] at hkind, rfl⟩)
      simp [hlook, hkeeps, hkind]
    · have hlook : r.look fs paths v = .ok ⟨v.path, .directory, true⟩ :=
        (look_eq_ok hopened).2 (.inr ⟨hfollow, hlink, l, _, hfind, fun _ => hloop, rfl⟩)
      simp [hlook, hkeeps]

/-- A visit yields a fault or the item of a file, also of a file that a link leads to. -/
theorem file_of_visit {i : Except Failure Entry} (h : r.visit fs paths v = .item i) :
    IsFault i ∨ r.keeps v.path = true ∧ ∃ l data, fs.find v.path true = .ok (l, .file data) ∧
      i = (RelativePath.fromRoot v.path r.settings.root).map fun relative =>
        ⟨v.path, relative, data.content.size⟩ := by
  unfold visit at h
  cases hlook : r.look fs paths v with
  | error f =>
    simp only [hlook, Outcome.item.injEq] at h
    exact .inl ⟨_, _, h.symm⟩
  | ok v' =>
    simp only [hlook, look_path hlook] at h
    by_cases hkeeps : r.keeps v.path = true
    · by_cases hkind : v'.kind = .directory
      · simp [hkeeps, hkind] at h
      · simp only [hkeeps, hkind, if_false, Bool.not_true, Bool.false_eq_true, leaf,
          look_path hlook] at h
        split at h
        · cases h
          exact .inl ⟨_, _, rfl⟩
        · rename_i l data hfind
          cases h
          refine .inr ⟨hkeeps, l, data, ?_, rfl⟩
          cases hflag : v'.followed || v'.kind == .link with
          | true => rwa [hflag] at hfind
          | false =>
            rw [hflag] at hfind
            exact find_true_of_ne_link hfind (by simp [Node.kind])
        · cases h
    · simp [hkeeps] at h

/-- Every file that is kept, and that a listed node is or leads to, is yielded. -/
theorem visit_eq_item {i : Except Failure Entry} (hopened : Opened fs paths opened)
    (hlisted : AsListed fs v) (hi : ¬IsFault i) :
    r.visit fs paths v = .item i ↔ r.keeps v.path = true ∧ ∃ l data,
      fs.find v.path true = .ok (l, .file data) ∧
      i = (RelativePath.fromRoot v.path r.settings.root).map fun relative =>
        ⟨v.path, relative, data.content.size⟩ := by
  constructor
  · intro h
    exact (file_of_visit h).resolve_left hi
  · rintro ⟨hkeeps, l, data, hfind, rfl⟩
    unfold visit
    -- the file stands at the path itself, or a link there leads to it, followed or not
    rcases find_true_cases hfind with hplain | ⟨here, target, hlink⟩
    · have hkind : v.kind = .file := (hlisted.kind _ _ hplain).symm
      have hlook : r.look fs paths v = .ok v :=
        (look_eq_ok hopened).2 (.inl ⟨fun h => by simp [h.2] at hkind, rfl⟩)
      have hflag : (Kind.file == Kind.link) = false := rfl
      simp [hlook, hkeeps, hkind, leaf, hlisted.unfollowed, hflag, hplain]
    · have hkind : v.kind = .link := (hlisted.kind _ _ hlink).symm
      by_cases hfollow : r.settings.followLinks = true
      · have hlook : r.look fs paths v = .ok ⟨v.path, .file, true⟩ :=
          (look_eq_ok hopened).2 (.inr ⟨hfollow, hkind, l, _, hfind, by simp [Node.kind], rfl⟩)
        simp [hlook, hkeeps, leaf, hfind]
      · have hlook : r.look fs paths v = .ok v :=
          (look_eq_ok hopened).2 (.inl ⟨fun h => hfollow h.1, rfl⟩)
        simp [hlook, hkeeps, hkind, leaf, hfind]

theorem mem_listing_of_directory {item : Except (Path × IoError) Visit} {l : Location} {mode : Nat}
    {nodes : List (Name × Node)} (hfind : fs.find p true = .ok (l, .directory mode nodes)) :
    item ∈ r.listing fs p ↔ ∃ name node, nodes.lookup name = some node ∧
      item = .ok ⟨p.child name, node.kind, false⟩ := by
  have hlist : fs.list p = .ok (nodes.map fun e => (e.1, e.2.kind)) :=
    list_eq_ok.2 ⟨l, mode, nodes, hfind, rfl⟩
  have hdistinct : (nodes.map Prod.fst).Nodup := by
    cases fs.wellFormed.get? (get?_of_find hfind) with
    | directory distinct legal inner => exact distinct
  rw [mem_listing]
  constructor
  · intro h
    rcases h with ⟨e, herror, -⟩ | ⟨entries, name, kind, hentries, hmem, rfl⟩
    · rw [hlist] at herror
      cases herror
    · rw [hlist] at hentries
      cases hentries
      obtain ⟨⟨name', node⟩, hnode, heq⟩ := List.mem_map.1 hmem
      obtain ⟨rfl, rfl⟩ := Prod.mk.inj heq
      exact ⟨name', node, Node.lookup_of_mem hdistinct hnode, rfl⟩
  · intro h
    obtain ⟨name, node, hlookup, rfl⟩ := h
    exact .inr ⟨_, name, node.kind, hlist,
      List.mem_map.2 ⟨(name, node), Node.mem_of_lookup hlookup, rfl⟩, rfl⟩

theorem bytes_ne_nil_of_find {follow : Bool} {l : Location} {node : Node}
    (h : fs.find p follow = .ok (l, node)) : p.bytes ≠ [] := by
  obtain ⟨place, hlocate, -, -⟩ := find_eq_ok.1 h
  have := (checkPath_eq_ok.1 (locate_eq_ok.1 hlocate).1).2.1
  rwa [List.isEmpty_eq_false_iff] at this

/-- A directory lists what is found under its names. -/
theorem asListed_child {l : Location} {mode : Nat} {nodes : List (Name × Node)} {name : Name}
    {node : Node} (hfind : fs.find p true = .ok (l, .directory mode nodes))
    (hlookup : nodes.lookup name = some node) :
    isLegalName name = true ∧ AsListed fs ⟨p.child name, node.kind, false⟩ := by
  have hlegal : isLegalName name = true := by
    cases fs.wellFormed.get? (get?_of_find hfind) with
    | directory distinct legal inner =>
      exact legal name (List.mem_map_of_mem (Node.mem_of_lookup hlookup))
  refine ⟨hlegal, rfl, ?_⟩
  intro here found hfound
  obtain ⟨-, outer, mode', nodes', houter, hlookup', -⟩ :=
    (find_child hlegal (bytes_ne_nil_of_find hfind)).1 hfound
  rw [hfind] at houter
  cases houter
  rw [hlookup] at hlookup'
  cases hlookup'
  rfl

/-- What is found under a name below a directory is in its listing. -/
theorem mem_listing_of_find {l : Location} {node : Node} {name : Name}
    (hlegal : isLegalName name = true) (hp : p.bytes ≠ [])
    (h : fs.find (p.child name) false = .ok (l, node)) :
    .ok ⟨p.child name, node.kind, false⟩ ∈ r.listing fs p := by
  obtain ⟨-, outer, mode, nodes, houter, hlookup, -⟩ := (find_child hlegal hp).1 h
  exact (mem_listing_of_directory houter).2 ⟨name, node, hlookup, rfl⟩

theorem reached_of_visit {name : Name} {l : Location} {mode : Nat} {nodes : List (Name × Node)}
    (houter : r.settings.Reached fs names opened) (hopened : Opened fs paths opened)
    (hlegal : isLegalName name = true) (hlisted : AsListed fs v)
    (hpath : v.path = r.settings.source.below (names ++ [name]))
    (hvisit : r.visit fs paths v = .directory v.path)
    (hfind : fs.find v.path true = .ok (l, .directory mode nodes)) :
    r.settings.Reached fs (names ++ [name]) (l :: opened) := by
  obtain ⟨-, -, hentered⟩ := (visit_eq_directory hopened).1 hvisit
  rcases hentered with hkind | ⟨hfollow, hkind, l', mode', nodes', hfind', hloop⟩
  · -- it is listed as a directory, so there is no link at its path
    rcases find_true_cases hfind with hplain | ⟨here, target, hlink⟩
    · exact .directory houter hlegal (hpath ▸ hplain)
    · have heq := hlisted.kind _ _ hlink
      rw [hkind] at heq
      cases heq
  · rw [hfind] at hfind'
    cases hfind'
    rcases find_true_cases hfind with hplain | ⟨here, target, hlink⟩
    · have heq := hlisted.kind _ _ hplain
      rw [hkind] at heq
      cases heq
    · exact .link houter hlegal hfollow (hpath ▸ hlink) (hpath ▸ hfind) hloop

/-- The location of the directory that a walk gets to by some names. -/
theorem find_of_reached {s : Settings} {here : Location}
    (h : s.Reached fs names (here :: opened)) :
    ∃ mode nodes, fs.find (s.source.below names) true = .ok (here, .directory mode nodes) := by
  cases h with
  | source h => exact ⟨_, _, h⟩
  | directory outer legal h => exact ⟨_, _, find_true_of_ne_link h (by simp [Node.kind])⟩
  | link outer legal followed hlink h noLoop => exact ⟨_, _, h⟩

theorem exists_cons_of_reached {s : Settings} (h : s.Reached fs names opened) :
    ∃ here outer, opened = here :: outer := by
  cases h with
  | source h => exact ⟨_, _, rfl⟩
  | directory outer legal h => exact ⟨_, _, rfl⟩
  | link outer legal followed hlink h noLoop => exact ⟨_, _, rfl⟩

/-- A node that a walk comes to under some names and one name more. -/
structure Visited (r : Rules) (fs : FileSystem) (names : List Name) (here : Location)
    (opened : List Location) (name : Name) (node : Node) (paths : List Path) : Prop where
  reached : r.settings.Reached fs names (here :: opened)
  visible : r.Visible names
  opened : Opened fs paths (here :: opened)
  entry : fs.get? (here ++ [name]) = some node

/-- A node as its directory lists it, below the source by some names and one name more. -/
def listed (r : Rules) (names : List Name) (name : Name) (node : Node) : Visit :=
  ⟨r.settings.source.below (names ++ [name]), node.kind, false⟩

section Visited

variable {here : Location} {name : Name} {node : Node}

theorem Visited.asListed (hv : r.Visited fs names here opened name node paths) :
    isLegalName name = true ∧ AsListed fs (r.listed names name node) := by
  obtain ⟨mode, nodes, hfind⟩ := find_of_reached hv.reached
  have hlookup := hv.entry
  rw [get?_concat_of_directory (get?_of_find hfind)] at hlookup
  rw [listed, Path.below_concat]
  exact asListed_child hfind hlookup

theorem Visited.child {inner : Name} {child : Node} {l : Location} {mode : Nat}
    {nodes : List (Name × Node)} (hv : r.Visited fs names here opened name node paths)
    (hvisit : r.visit fs paths (r.listed names name node) =
      .directory (r.settings.source.below (names ++ [name])))
    (hfind : fs.find (r.settings.source.below (names ++ [name])) true =
      .ok (l, .directory mode nodes))
    (hlookup : nodes.lookup inner = some child) :
    r.Visited fs (names ++ [name]) l (here :: opened) inner child
      (r.settings.source.below (names ++ [name]) :: paths) where
  reached := reached_of_visit hv.reached hv.opened hv.asListed.1 hv.asListed.2 rfl hvisit hfind
  visible := visible_concat.2 ⟨hv.visible, ((visit_eq_directory hv.opened).1 hvisit).2.1⟩
  opened := .cons ⟨_, hfind⟩ hv.opened
  entry := by rw [get?_concat_of_directory (get?_of_find hfind), hlookup]

theorem visited_of_mem_source {mode : Nat} {nodes : List (Name × Node)} {v : Visit}
    (hfind : fs.find r.settings.source true = .ok (here, .directory mode nodes))
    (h : .ok v ∈ r.listing fs r.settings.source) : ∃ inner child, v = r.listed [] inner child ∧
      r.Visited fs [] here [] inner child [r.settings.source] := by
  obtain ⟨inner, child, hlookup, heq⟩ := (mem_listing_of_directory hfind).1 h
  refine ⟨inner, child, Except.ok.inj heq, .source hfind, visible_nil, .cons ⟨_, hfind⟩ .nil, ?_⟩
  rw [get?_concat_of_directory (get?_of_find hfind), hlookup]

/-- What is listed in a directory that a walk goes on with is what it comes to next. -/
theorem Visited.exists_child {v : Visit} (hv : r.Visited fs names here opened name node paths)
    (hvisit : r.visit fs paths (r.listed names name node) =
      .directory (r.settings.source.below (names ++ [name])))
    (h : .ok v ∈ r.listing fs (r.settings.source.below (names ++ [name]))) :
    ∃ l inner child, v = r.listed (names ++ [name]) inner child ∧
      r.Visited fs (names ++ [name]) l (here :: opened) inner child
        (r.settings.source.below (names ++ [name]) :: paths) := by
  rcases mem_listing.1 h with ⟨e, -, heq⟩ | ⟨entries, -, -, hlist, -, -⟩
  · cases heq
  · obtain ⟨l, mode, nodes, hfind, -⟩ := list_eq_ok.1 hlist
    obtain ⟨inner, child, hlookup, heq⟩ := (mem_listing_of_directory hfind).1 h
    refine ⟨l, inner, child, ?_, hv.child hvisit hfind hlookup⟩
    rw [listed, Path.below_concat]
    exact Except.ok.inj heq

/-- The items of a node are the items of the nodes that the walk comes to from there, and failures
to list what is kept. -/
theorem visited_of_mem_traverse {i : Except Failure Entry}
    (hv : r.Visited fs names here opened name node paths)
    (hi : i ∈ r.traverse fs paths (r.listed names name node)) :
    (∃ names here opened name node paths, r.Visited fs names here opened name node paths ∧
      r.visit fs paths (r.listed names name node) = .item i) ∨
    ∃ p e, r.keeps p = true ∧ i = .error (r.failure ⟨some p, e⟩) := by
  -- a name more leaves less room in the path, which is why the traversal ends
  induction hroom : (r.listed names name node).path.room using Nat.strongRecOn
    generalizing names here opened name node paths with
  | ind room ih =>
    subst hroom
    rw [traverse_eq] at hi
    cases hvisit : r.visit fs paths (r.listed names name node) with
    | nothing => simp [hvisit, results] at hi
    | item j =>
      rw [hvisit] at hi
      obtain rfl := List.mem_singleton.1 hi
      exact .inl ⟨names, here, opened, name, node, paths, hv, hvisit⟩
    | directory p =>
      obtain ⟨rfl, hkeeps, -⟩ := (visit_eq_directory hv.opened).1 hvisit
      rw [hvisit] at hi
      obtain ⟨item, hitem, hi⟩ := List.mem_flatMap.1 hi
      rcases mem_listing.1 hitem with ⟨e, -, rfl⟩ | ⟨entries, inner, kind, -, -, rfl⟩
      · exact .inr ⟨_, e, hkeeps, List.mem_singleton.1 hi⟩
      · have hroom := room_lt_of_mem_listing hitem
        obtain ⟨l, inner, child, heq, hchild⟩ := hv.exists_child hvisit hitem
        rw [heq] at hi hroom
        exact ih _ hroom hchild hi rfl

/-- What a walk that begins at a directory yields comes of the nodes that it comes to, or is a
failure to list what is kept. -/
theorem visited_of_mem_results {mode : Nat} {nodes : List (Name × Node)}
    {i : Except Failure Entry}
    (hsource : fs.find r.settings.source true = .ok (here, .directory mode nodes))
    (hi : i ∈ r.results fs [] (.directory r.settings.source)) :
    (∃ names here opened name node paths, r.Visited fs names here opened name node paths ∧
      r.visit fs paths (r.listed names name node) = .item i) ∨
    ∃ p e, r.keeps p = true ∧ i = .error (r.failure ⟨some p, e⟩) := by
  obtain ⟨item, hitem, hi⟩ := List.mem_flatMap.1 hi
  obtain ⟨name, node, hlookup, rfl⟩ := (mem_listing_of_directory hsource).1 hitem
  obtain ⟨inner, child, heq, hv⟩ := visited_of_mem_source hsource hitem
  rw [heq] at hi
  exact visited_of_mem_traverse hv hi

end Visited

theorem not_isFault_relative {root : Path} {size : Nat} :
    ¬IsFault ((RelativePath.fromRoot p root).map fun relative => ⟨p, relative, size⟩) := by
  rintro ⟨p', e, h⟩
  cases hrelative : RelativePath.fromRoot p root with
  | ok relative => simp [hrelative, Except.map] at h
  | error f =>
    simp only [hrelative, Except.map, Except.error.injEq] at h
    subst h
    rcases RelativePath.fromRoot_error hrelative with heq | heq | ⟨text, fault, heq⟩ <;> cases heq

theorem not_isFault_itemOf {data : FileData} : ¬IsFault (r.itemOf names data) :=
  not_isFault_relative

theorem begin_of_directory {l : Location} {mode : Nat} {nodes : List (Name × Node)}
    (hfind : fs.find r.settings.source true = .ok (l, .directory mode nodes)) :
    r.begin fs = .directory r.settings.source := by
  unfold begin
  rcases find_true_cases hfind with hplain | ⟨here, target, hlink⟩
  · have hlook : r.look fs [] ⟨r.settings.source, .directory, false⟩ =
        .ok ⟨r.settings.source, .directory, false⟩ := (look_eq_ok .nil).2 (.inl ⟨by simp, rfl⟩)
    simp [hplain, Node.kind, hlook]
  · by_cases hfollow : r.settings.followLinks = true
    · have hlook : r.look fs [] ⟨r.settings.source, .link, false⟩ =
          .ok ⟨r.settings.source, .directory, true⟩ :=
        (look_eq_ok .nil).2 (.inr ⟨hfollow, rfl, l, _, hfind, by simp, rfl⟩)
      simp [hlink, Node.kind, hlook]
    · have hlook : r.look fs [] ⟨r.settings.source, .link, false⟩ =
          .ok ⟨r.settings.source, .link, false⟩ :=
        (look_eq_ok .nil).2 (.inl ⟨fun h => hfollow h.1, rfl⟩)
      simp [hlink, Node.kind, hlook, hfind]

/-- A walk begins with a fault, with the directory that its source leads to, or with nothing. -/
theorem begin_cases (r : Rules) (fs : FileSystem) :
    (∃ i, r.begin fs = .item i ∧ IsFault i) ∨
    (r.begin fs = .directory r.settings.source ∧ ∃ l mode nodes,
      fs.find r.settings.source true = .ok (l, .directory mode nodes)) ∨
    r.begin fs = .nothing := by
  unfold begin
  simp only
  cases hfind : fs.find r.settings.source false with
  | error e => exact .inl ⟨_, rfl, _, _, rfl⟩
  | ok found =>
    obtain ⟨l, node⟩ := found
    simp only
    cases hlook : r.look fs [] ⟨r.settings.source, node.kind, false⟩ with
    | error f => exact .inl ⟨_, rfl, _, _, rfl⟩
    | ok v =>
      simp only
      by_cases hdir : v.kind = .directory
      · -- the source is a directory itself, or it is a link and links are followed
        have hsource : ∃ l mode nodes,
            fs.find r.settings.source true = .ok (l, .directory mode nodes) := by
          rcases (look_eq_ok .nil).1 hlook with ⟨-, rfl⟩ | ⟨-, -, l', node', hfollowed, -, rfl⟩
          · obtain ⟨mode, nodes, rfl⟩ := Node.exists_of_kind_directory hdir
            exact ⟨l, mode, nodes, find_true_of_ne_link hfind (by simp [Node.kind])⟩
          · obtain ⟨mode, nodes, rfl⟩ := Node.exists_of_kind_directory hdir
            exact ⟨l', mode, nodes, hfollowed⟩
        exact .inr (.inl ⟨if_pos hdir, hsource⟩)
      · rw [if_neg hdir]
        by_cases hlink : v.kind = .link
        · rw [if_pos hlink]
          cases hfollowed : fs.find r.settings.source true with
          | error e => exact .inl ⟨_, rfl, _, _, rfl⟩
          | ok target =>
            obtain ⟨l', node'⟩ := target
            cases node' with
            | directory mode nodes => exact .inr (.inl ⟨rfl, l', mode, nodes, rfl⟩)
            | file data => exact .inr (.inr rfl)
            | link path => exact .inr (.inr rfl)
            | pipe => exact .inr (.inr rfl)
        · exact .inr (.inr (if_neg hlink))

theorem isFault_of_begin {i : Except Failure Entry} (h : r.begin fs = .item i) : IsFault i := by
  rcases r.begin_cases fs with ⟨j, hitem, hfault⟩ | ⟨hdirectory, -⟩ | hnothing
  · rw [h] at hitem
    cases hitem
    exact hfault
  · rw [h] at hdirectory
    cases hdirectory
  · rw [h] at hnothing
    cases hnothing

theorem mem_results_of_visit {name : Name} {paths : List Path} {l : Location} {node : Node}
    {i : Except Failure Entry} (hlegal : isLegalName name = true)
    (hitems : ∀ item ∈ r.listing fs (r.settings.source.below names),
      ∀ i ∈ r.traverseItem fs paths item, i ∈ r.results fs [] (r.begin fs))
    (hp : (r.settings.source.below names).bytes ≠ [])
    (hfind : fs.find (r.settings.source.below (names ++ [name])) false = .ok (l, node))
    (hi : i ∈ r.results fs paths
      (r.visit fs paths ⟨r.settings.source.below (names ++ [name]), node.kind, false⟩)) :
    i ∈ r.results fs [] (r.begin fs) := by
  rw [Path.below_append] at hfind hi
  refine hitems _ (mem_listing_of_find hlegal hp hfind) i ?_
  rw [traverseItem, traverse_eq]
  exact hi

/-- The items of a directory that the walk gets to are items of the walk. -/
theorem mem_results_of_reached (h : r.settings.Reached fs names opened)
    (hvisible : r.Visible names) :
    ∃ paths, Opened fs paths opened ∧ (r.settings.source.below names).bytes ≠ [] ∧
      ∀ item ∈ r.listing fs (r.settings.source.below names),
        ∀ i ∈ r.traverseItem fs paths item, i ∈ r.results fs [] (r.begin fs) := by
  induction h with
  | @source l mode nodes hfind =>
    refine ⟨[r.settings.source], .cons ⟨_, hfind⟩ .nil, bytes_ne_nil_of_find hfind, ?_⟩
    intro item hitem i hi
    rw [begin_of_directory hfind]
    exact List.mem_flatMap.2 ⟨item, hitem, hi⟩
  | @directory names opened name l mode nodes outer legal hfind ih =>
    obtain ⟨hnames, hkeeps⟩ := visible_concat.1 hvisible
    obtain ⟨paths, hopened, hp, hitems⟩ := ih hnames
    have htrue := find_true_of_ne_link hfind (by simp [Node.kind])
    have hvisit := (visit_eq_directory
      (v := ⟨r.settings.source.below (names ++ [name]), .directory, false⟩) hopened).2
      ⟨rfl, hkeeps, .inl rfl⟩
    refine ⟨_ :: paths, .cons ⟨_, htrue⟩ hopened, bytes_ne_nil_of_find hfind, ?_⟩
    intro item hitem i hi
    apply mem_results_of_visit legal hitems hp hfind
    rw [Node.kind, hvisit]
    exact List.mem_flatMap.2 ⟨item, hitem, hi⟩
  | @link names opened name l here target mode nodes outer legal followed hlink hfind noLoop ih =>
    -- the listing says that it is a link, and following it makes it a directory
    obtain ⟨hnames, hkeeps⟩ := visible_concat.1 hvisible
    obtain ⟨paths, hopened, hp, hitems⟩ := ih hnames
    have hvisit := (visit_eq_directory
      (v := ⟨r.settings.source.below (names ++ [name]), .link, false⟩) hopened).2
      ⟨rfl, hkeeps, .inr ⟨followed, rfl, l, mode, nodes, hfind, noLoop⟩⟩
    refine ⟨_ :: paths, .cons ⟨_, hfind⟩ hopened, bytes_ne_nil_of_find hfind, ?_⟩
    intro item hitem i hi
    apply mem_results_of_visit legal hitems hp hlink
    rw [Node.kind, hvisit]
    exact List.mem_flatMap.2 ⟨item, hitem, hi⟩

/-- Apart from its faults a walk gives an item for every file that it finds, and nothing else. -/
theorem mem_results_begin {i : Except Failure Entry} (hi : ¬IsFault i) :
    i ∈ r.results fs [] (r.begin fs) ↔
      ∃ names data, r.Found fs names data ∧ i = r.itemOf names data := by
  constructor
  · intro h
    rcases r.begin_cases fs with ⟨j, hbegin, hfault⟩ | ⟨hbegin, l, mode, nodes, hfind⟩ | hbegin
    · rw [hbegin] at h
      obtain rfl := List.mem_singleton.1 h
      exact absurd hfault hi
    · rw [hbegin] at h
      rcases visited_of_mem_results hfind h with
        ⟨names, here, opened, name, node, paths, hv, hvisit⟩ | ⟨p, e, -, rfl⟩
      · obtain ⟨hkeeps, l', data, hfile, rfl⟩ := (visit_eq_item hv.opened hv.asListed.2 hi).1 hvisit
        exact ⟨names ++ [name], data, ⟨⟨names, name, _, rfl, hv.asListed.1, hv.reached⟩,
          visible_concat.2 ⟨hv.visible, hkeeps⟩, l', hfile⟩, rfl⟩
      · exact absurd ⟨_, _, rfl⟩ hi
    · rw [hbegin] at h
      cases h
  · -- the directory of the file is reached, so the file is visited from its listing
    rintro ⟨names, data, ⟨⟨front, name, opened, rfl, hlegal, hreached⟩, hvisible, l, hfind⟩, rfl⟩
    obtain ⟨hfront, hkeeps⟩ := visible_concat.1 hvisible
    obtain ⟨paths, hopened, hp, hitems⟩ := mem_results_of_reached hreached hfront
    obtain ⟨here, node, hplain⟩ : ∃ here node,
        fs.find (r.settings.source.below (front ++ [name])) false = .ok (here, node) := by
      rcases find_true_cases hfind with hplain | ⟨here, target, hlink⟩
      · exact ⟨_, _, hplain⟩
      · exact ⟨_, _, hlink⟩
    refine mem_results_of_visit hlegal hitems hp hplain ?_
    have hlisted : AsListed fs ⟨r.settings.source.below (front ++ [name]), node.kind, false⟩ := by
      refine ⟨rfl, ?_⟩
      intro l' node' hfound
      rw [hplain] at hfound
      cases hfound
      rfl
    rw [(visit_eq_item hopened hlisted not_isFault_itemOf).2 ⟨hkeeps, l, data, hfind, rfl⟩]
    exact List.mem_singleton_self _

end Rules

end TreeArchive
