import TreeArchive.Proofs.Reached
import TreeArchive.Proofs.Way

/-!
What a walk takes up at a node is decided by what shows at the node's path: by the locations, kinds
and files there, and not by the entries of directories.
-/
namespace TreeArchive

open FileSystem

namespace FileSystem

variable {fs fs' : FileSystem} {l here : Location} {p : Path} {follow : Bool}

/-- What a path leads to, without the entries of a directory. -/
def glance (fs : FileSystem) (p : Path) (follow : Bool) : Except IoError (Location × Node) :=
  (fs.find p follow).map fun found => (found.1, found.2.shell)

theorem NothingAdded.glance_eq (hadded : fs.NothingAdded fs' l) (havoids : fs.Avoids p l)
    (follow : Bool) : fs'.glance p follow = fs.glance p follow := by
  have hview := hadded.view_locate havoids follow
  have hglance (fs : FileSystem) : fs.glance p follow =
      (fs.locate p follow).map Spot.view >>= fun
        | (l, some node) => .ok (l, node)
        | (_, none) => .error (.system .noEntry) := by
    unfold glance find
    cases fs.locate p follow with
    | error e => rfl
    | ok spot => cases spot <;> rfl
  rw [hglance, hglance, hview]

theorem Without.glance_eq (hwithout : fs.Without fs' l) (havoids : fs.Avoids p l)
    (follow : Bool) : fs'.glance p follow = fs.glance p follow :=
  hwithout.nothingAdded.glance_eq havoids follow

/-- Equal glances come from equal failures or from nodes that differ in entries only. -/
theorem find_of_glance_eq (h : fs'.glance p follow = fs.glance p follow) :
    (∃ e, fs.find p follow = .error e ∧ fs'.find p follow = .error e) ∨
    ∃ l node node', fs.find p follow = .ok (l, node) ∧ fs'.find p follow = .ok (l, node') ∧
      node'.shell = node.shell := by
  unfold glance at h
  cases hfind : fs.find p follow with
  | error e =>
    rw [hfind] at h
    cases hfind' : fs'.find p follow with
    | error e' =>
      rw [hfind'] at h
      cases h
      exact .inl ⟨e, rfl, rfl⟩
    | ok found =>
      rw [hfind'] at h
      cases h
  | ok found =>
    obtain ⟨l, node⟩ := found
    rw [hfind] at h
    cases hfind' : fs'.find p follow with
    | error e =>
      rw [hfind'] at h
      cases h
    | ok found' =>
      obtain ⟨l', node'⟩ := found'
      rw [hfind'] at h
      obtain ⟨rfl, hnode⟩ := Prod.mk.inj (Except.ok.inj h)
      exact .inr ⟨l', node, node', rfl, rfl, hnode⟩

/-- A path that no call would look up fails in every file system in the same way. -/
theorem glance_eq_of_checkPath {e : IoError} (h : checkPath p = .error e) :
    fs'.glance p follow = fs.glance p follow := by
  have hfind (fs : FileSystem) : fs.find p follow = .error e := by
    rw [find, locate, h]
    rfl
  rw [glance, glance, hfind, hfind]

/-- Nothing stands below a location that is gone. -/
theorem Without.outside (hwithout : fs.Without fs' l) {other : Location} {node : Node}
    (h : fs'.get? other = some node) : ¬l <+: other := by
  rintro ⟨rest, rfl⟩
  have hgone := hwithout.gone
  rw [get?] at h hgone
  rw [Node.get?_append, hgone] at h
  cases h

/-- A directory that a path leads to in both file systems. -/
structure Paired (fs fs' : FileSystem) (p : Path) (here : Location)
    (nodes nodes' : List (Name × Node)) : Prop where
  before : ∃ mode, fs.find p true = .ok (here, .directory mode nodes)
  after : ∃ mode, fs'.find p true = .ok (here, .directory mode nodes')

namespace Paired

variable {nodes nodes' : List (Name × Node)} {name : Name} {node : Node}

theorem lookup_gone (h : Paired fs fs' p here nodes nodes') (hwithout : fs.Without fs' l)
    (hl : here ++ [name] = l) : nodes'.lookup name = none := by
  obtain ⟨mode, hafter⟩ := h.after
  rw [← get?_concat_of_directory (get?_of_find hafter), hl, hwithout.gone]

theorem shell_lookup (h : Paired fs fs' p here nodes nodes') (hwithout : fs.Without fs' l)
    (hl : here ++ [name] ≠ l) :
    (nodes'.lookup name).map Node.shell = (nodes.lookup name).map Node.shell := by
  obtain ⟨mode, hbefore⟩ := h.before
  obtain ⟨mode', hafter⟩ := h.after
  rw [← get?_concat_of_directory (get?_of_find hafter),
    ← get?_concat_of_directory (get?_of_find hbefore)]
  apply hwithout.same.shell
  intro hinit
  rcases List.prefix_concat_iff.1 hinit with heq | hinit
  · exact hl heq.symm
  · exact hwithout.outside (get?_of_find hafter) hinit

/-- The same shows at an entry that is no link, if the entry is the same but for what it holds. -/
theorem glance_child_of_shell (h : Paired fs fs' p here nodes nodes')
    (hshell : (nodes'.lookup name).map Node.shell = (nodes.lookup name).map Node.shell)
    (hlookup : nodes.lookup name = some node) (hkind : node.kind ≠ .link) (follow : Bool) :
    fs'.glance (p.child name) follow = fs.glance (p.child name) follow := by
  obtain ⟨mode, hbefore⟩ := h.before
  obtain ⟨mode', hafter⟩ := h.after
  have hp := Rules.bytes_ne_nil_of_find hbefore
  have hlegal := (Rules.asListed_child hbefore hlookup).1
  rw [hlookup] at hshell
  obtain ⟨node', hlookup', hsame⟩ := Option.map_eq_some_iff.1 hshell
  have hkind' : node'.kind ≠ .link := by rwa [← Node.kind_shell, hsame, Node.kind_shell]
  cases hcheck : checkPath (p.child name) with
  | error e => exact glance_eq_of_checkPath hcheck
  | ok u =>
    -- the directory is at the same location in both, and has an entry of this name in both
    have hlength := (checkPath_eq_ok.1 hcheck).2.2
    have hfind : fs.find (p.child name) false = .ok (here ++ [name], node) :=
      (find_child hlegal hp).2 ⟨hlength, here, mode, nodes, hbefore, hlookup, rfl⟩
    have hfind' : fs'.find (p.child name) false = .ok (here ++ [name], node') :=
      (find_child hlegal hp).2 ⟨hlength, here, mode', nodes', hafter, hlookup', rfl⟩
    cases follow with
    | false => rw [glance, glance, hfind, hfind', Except.map, Except.map, hsame]
    | true =>
      rw [glance, glance, find_true_of_ne_link hfind hkind, find_true_of_ne_link hfind' hkind',
        Except.map, Except.map, hsame]

/-- The same shows at an entry that is no link, unless it is the one that is gone. -/
theorem glance_child (h : Paired fs fs' p here nodes nodes') (hwithout : fs.Without fs' l)
    (hl : here ++ [name] ≠ l) (hlookup : nodes.lookup name = some node)
    (hkind : node.kind ≠ .link) (follow : Bool) :
    fs'.glance (p.child name) follow = fs.glance (p.child name) follow :=
  h.glance_child_of_shell (h.shell_lookup hwithout hl) hlookup hkind follow

end Paired

end FileSystem

namespace Rules

variable {r : Rules} {fs fs' : FileSystem} {paths : List Path} {opened : List Location} {v : Visit}

theorem leaf_eq_of_glance (h : fs'.glance v.path (v.followed || v.kind == .link) =
      fs.glance v.path (v.followed || v.kind == .link)) : r.leaf fs' v = r.leaf fs v := by
  unfold leaf
  rcases find_of_glance_eq h with ⟨e, hfind, hfind'⟩ | ⟨l, node, node', hfind, hfind', hshell⟩
  · rw [hfind, hfind']
  · rw [hfind, hfind']
    by_cases hkind : node.kind = .directory
    · have hkind' : node'.kind = .directory := by
        rw [← Node.kind_shell, hshell, Node.kind_shell, hkind]
      obtain ⟨mode, nodes, rfl⟩ := Node.exists_of_kind_directory hkind
      obtain ⟨mode', nodes', rfl⟩ := Node.exists_of_kind_directory hkind'
      rfl
    · rw [Node.eq_of_shell hshell hkind]

theorem checkLoop_eq {child : Path} {here : Location} (hopened : Opened fs paths opened)
    (hopened' : Opened fs' paths opened) :
    checkLoop fs' child here paths = checkLoop fs child here paths := by
  induction hopened with
  | nil => rfl
  | @cons p l paths locations hp hrest ih =>
    -- a loop is known by the location of an open directory, which is the same in both
    obtain ⟨node, hfind⟩ := hp
    obtain ⟨⟨node', hfind'⟩, hrest'⟩ := List.forall₂_cons.1 hopened'
    simp only [checkLoop, openedAt, hfind, hfind', bind, Except.bind, ih hrest']

theorem look_eq_of_glance (hopened : Opened fs paths opened) (hopened' : Opened fs' paths opened)
    (h : v.kind = .link → fs'.glance v.path true = fs.glance v.path true) :
    r.look fs' paths v = r.look fs paths v := by
  unfold look
  by_cases hlink : r.settings.followLinks = true ∧ v.kind = .link
  · rw [if_pos hlink, if_pos hlink]
    unfold follow
    rcases find_of_glance_eq (h hlink.2) with ⟨e, hfind, hfind'⟩ |
      ⟨l, node, node', hfind, hfind', hshell⟩
    · rw [hfind, hfind']
    · have hkind : node'.kind = node.kind := by rw [← Node.kind_shell, hshell, Node.kind_shell]
      rw [hfind, hfind']
      simp only [hkind, checkLoop_eq hopened hopened']
  · rw [if_neg hlink, if_neg hlink]

/-- A listed node is taken up in the same way where the same shows at its path, followed or not as
its kind asks for. -/
theorem visit_eq_of_glance (hopened : Opened fs paths opened) (hopened' : Opened fs' paths opened)
    (hv : v.followed = false)
    (h : fs'.glance v.path (v.kind == .link) = fs.glance v.path (v.kind == .link)) :
    r.visit fs' paths v = r.visit fs paths v := by
  have htrue (hlink : v.kind = .link) : fs'.glance v.path true = fs.glance v.path true := by
    simpa [hlink] using h
  unfold visit
  rw [look_eq_of_glance hopened hopened' htrue]
  cases hlook : r.look fs paths v with
  | error f => rfl
  | ok v' =>
    have hleaf : r.leaf fs' v' = r.leaf fs v' := by
      apply leaf_eq_of_glance
      rcases (look_eq_ok hopened).1 hlook with ⟨-, rfl⟩ | ⟨-, hlink, l, node, -, -, rfl⟩
      · rwa [hv, Bool.false_or]
      · exact htrue hlink
    simp only [hleaf]

end Rules

end TreeArchive
