import Mathlib
import TreeArchive.FileSystem.Literal
import TreeArchive.Proofs.Exactness
import TreeArchive.Proofs.Glance

/-!
What is left out of a walk has no influence on the rest of it. A link is followed before it is known
to be left out, so one that cannot be followed is told of all the same; nothing else of what is left
out is seen.
-/
namespace TreeArchive

open FileSystem

theorem flatMap_filter_of_nil {α β : Type} {keep : α → Bool} {f g : α → List β} (xs : List α)
    (hkeep : ∀ x ∈ xs, keep x = true → f x = g x) (hdrop : ∀ x ∈ xs, keep x = false → g x = []) :
    (xs.filter keep).flatMap f = xs.flatMap g := by
  induction xs with
  | nil => rfl
  | cons x rest ih =>
    have hrest := ih (fun y hy => hkeep y (List.mem_cons_of_mem x hy))
      (fun y hy => hdrop y (List.mem_cons_of_mem x hy))
    rw [List.flatMap_cons, ← hrest]
    cases hx : keep x with
    | true =>
      rw [List.filter_cons_of_pos hx, List.flatMap_cons]
      rw [hkeep x List.mem_cons_self hx]
    | false =>
      rw [List.filter_cons_of_neg (by simp [hx]), hdrop x List.mem_cons_self hx, List.nil_append]

namespace Rules

/-- A fault that is told of a path that is left out. -/
def isStray (r : Rules) : Except Failure Entry → Bool
  | .error (.walk p _) => !r.keeps p
  | _ => false

/-- A link that is left out, in a directory that the walk gets to: it leads nowhere, or to one of
the open directories. -/
structure Stray (r : Rules) (fs : FileSystem) (front : List Name) (name : Name) : Prop where
  visible : r.Visible front
  left : r.keeps (r.settings.source.below (front ++ [name])) = false
  blocked : ∃ here opened target, r.settings.Reached fs front (here :: opened) ∧
    fs.get? (here ++ [name]) = some (.link target) ∧
    ∀ l node, fs.find (r.settings.source.below (front ++ [name])) true = .ok (l, node) →
      node.kind = .directory ∧ l ∈ here :: opened

theorem isStray_eq_true {r : Rules} {i : Except Failure Entry} :
    r.isStray i = true ↔ ∃ p e, i = .error (.walk p e) ∧ r.keeps p = false := by
  unfold isStray
  split
  · simp
  · rename_i hother
    simp only [Bool.false_eq_true, false_iff, not_exists, not_and]
    intro p e heq
    exact absurd heq (hother p e)

variable {r : Rules} {fs fs' : FileSystem} {paths : List Path} {opened : List Location}
  {front : List Name} {v : Visit} {l here : Location} {nodes nodes' : List (Name × Node)} {p : Path}

theorem path_of_checkLoop_error {child : Path} {f : Fault} (hopened : Opened fs paths opened)
    (h : checkLoop fs child here paths = .error f) : f.path? = some child := by
  induction hopened with
  | nil => cases h
  | @cons p l paths locations hp hrest ih =>
    obtain ⟨node, hfind⟩ := hp
    simp only [checkLoop, openedAt, hfind, bind, Except.bind] at h
    split at h
    · cases h
      rfl
    · exact ih h

/-- A node that cannot be looked at is told of under its own path. -/
theorem path_of_look_error {f : Fault} (hopened : Opened fs paths opened)
    (h : r.look fs paths v = .error f) : f.path? = some v.path := by
  unfold look at h
  split at h
  · unfold follow at h
    split at h
    · cases h
      rfl
    · split at h
      · rcases bind_eq_error.1 h with h | ⟨u, -, h⟩
        · exact path_of_checkLoop_error hopened h
        · cases h
      · cases h
  · cases h

/-- Nothing comes of a node that is left out but a stray fault. -/
theorem visit_of_left_out (hopened : Opened fs paths opened) (hleft : r.keeps v.path = false) :
    (∃ e, r.visit fs paths v = .item (.error (.walk v.path e)) ∧
      ∃ f, r.look fs paths v = .error f) ∨ r.visit fs paths v = .nothing := by
  unfold visit
  -- a link is followed before the exclusions are asked, and a fault of that is told at once
  cases hlook : r.look fs paths v with
  | error f =>
    left
    refine ⟨f.source, ?_, f, rfl⟩
    simp [failure, path_of_look_error hopened hlook]
  | ok v' =>
    right
    simp [look_path hlook, hleft]

theorem path_of_leaf_fault {e : IoError} (h : r.leaf fs v = .item (.error (.walk p e))) :
    p = v.path := by
  unfold leaf at h
  split at h
  · cases h
    rfl
  · exact absurd ⟨p, e, Outcome.item.inj h⟩ not_isFault_relative
  · cases h

/-- A fault that comes of a node is told of under the node's own path. -/
theorem path_of_visit_fault {e : IoError} (hopened : Opened fs paths opened)
    (h : r.visit fs paths v = .item (.error (.walk p e))) : p = v.path := by
  unfold visit at h
  cases hlook : r.look fs paths v with
  | error f =>
    rw [hlook] at h
    cases h
    simp [path_of_look_error hopened hlook]
  | ok v' =>
    simp only [hlook, look_path hlook] at h
    split at h
    · cases h
    · split at h
      · cases h
      · rw [path_of_leaf_fault h, look_path hlook]

/-- A link cannot be followed where it leads to nothing, or to an open directory. -/
theorem look_eq_error (hopened : Opened fs paths opened) :
    (∃ f, r.look fs paths v = .error f) ↔ r.settings.followLinks = true ∧ v.kind = .link ∧
      ∀ l node, fs.find v.path true = .ok (l, node) → node.kind = .directory ∧ l ∈ opened := by
  constructor
  · intro h
    obtain ⟨f, hlook⟩ := h
    have hnever (v' : Visit) : r.look fs paths v ≠ .ok v' := by simp [hlook]
    by_cases hlink : r.settings.followLinks = true ∧ v.kind = .link
    · refine ⟨hlink.1, hlink.2, ?_⟩
      intro l node hfind
      by_contra hopen
      apply hnever ⟨v.path, node.kind, true⟩
      rw [look_eq_ok hopened]
      exact .inr ⟨hlink.1, hlink.2, l, node, hfind, fun hkind hl => hopen ⟨hkind, hl⟩, rfl⟩
    · exact absurd ((look_eq_ok hopened).2 (.inl ⟨hlink, rfl⟩)) (hnever v)
  · intro h
    obtain ⟨hfollow, hkind, hblocked⟩ := h
    cases hlook : r.look fs paths v with
    | error f => exact ⟨f, rfl⟩
    | ok v' =>
      rcases (look_eq_ok hopened).1 hlook with ⟨hplain, -⟩ | ⟨-, -, l, node, hfind, hopen, -⟩
      · exact absurd ⟨hfollow, hkind⟩ hplain
      · obtain ⟨hdir, hl⟩ := hblocked l node hfind
        exact absurd hl (hopen hdir)

/-- The faults told of paths that are left out are those of the stray links. -/
theorem mem_results_stray {mode : Nat} {nodes : List (Name × Node)}
    (hsource : fs.find r.settings.source true = .ok (l, .directory mode nodes)) :
    (r.keeps p = false ∧ ∃ e, .error (.walk p e) ∈ r.results fs [] (.directory r.settings.source)) ↔
      r.settings.followLinks = true ∧ ∃ front name, r.Stray fs front name ∧
        p = r.settings.source.below (front ++ [name]) := by
  constructor
  · intro h
    obtain ⟨hleft, e, hmem⟩ := h
    rcases visited_of_mem_results hsource hmem with
      ⟨front, here, opened, name, node, paths, hv, hvisit⟩ | ⟨q, e', hkeeps, heq⟩
    · obtain rfl := path_of_visit_fault hv.opened hvisit
      have hlook : ∃ f, r.look fs paths (r.listed front name node) = .error f := by
        rcases visit_of_left_out hv.opened hleft with ⟨e', -, hlook⟩ | hnothing
        · exact hlook
        · rw [hnothing] at hvisit
          cases hvisit
      obtain ⟨hfollow, hkind, hblocked⟩ := (look_eq_error hv.opened).1 hlook
      obtain ⟨target, rfl⟩ := Node.exists_of_kind_link hkind
      exact ⟨hfollow, front, name, ⟨hv.visible, hleft, here, opened, target, hv.reached, hv.entry,
        hblocked⟩, rfl⟩
    · -- a listing that fails is one of a directory that is kept
      cases heq
      rw [Option.getD_some, hkeeps] at hleft
      cases hleft
  · intro h
    obtain ⟨hfollow, front, name, hstray, rfl⟩ := h
    obtain ⟨hvisible, hleft, here, opened, target, hreached, hentry, hblocked⟩ := hstray
    refine ⟨hleft, ?_⟩
    obtain ⟨paths, hopened, -, hitems⟩ := mem_results_of_reached hreached hvisible
    obtain ⟨mode', nodes', hfind⟩ := find_of_reached hreached
    rw [get?_concat_of_directory (get?_of_find hfind)] at hentry
    obtain ⟨f, hlook⟩ := (look_eq_error (v := r.listed front name (.link target)) hopened).2
      ⟨hfollow, rfl, hblocked⟩
    rw [begin_of_directory hsource] at hitems
    refine ⟨f.source, hitems _ ((mem_listing_of_directory hfind).2 ⟨name, _, hentry, rfl⟩) _ ?_⟩
    rw [traverseItem, traverse_eq, ← Path.below_concat]
    have hvisit : r.visit fs paths (r.listed front name (.link target)) =
        .item (.error (r.failure f)) := by
      unfold visit
      rw [hlook]
    rw [← listed, hvisit, results, List.mem_singleton, failure, path_of_look_error hopened hlook]
    rfl

theorem filter_traverse_of_left_out (hopened : Opened fs paths opened)
    (hleft : r.keeps v.path = false) : (r.traverse fs paths v).filter (!r.isStray ·) = [] := by
  rw [traverse_eq]
  rcases visit_of_left_out hopened hleft with ⟨e, hvisit, -⟩ | hvisit
  · rw [hvisit, results]
    simp [isStray, hleft]
  · rw [hvisit, results]
    rfl

/-- Names with the kinds of their nodes, as a directory lists them. -/
def entriesOf (nodes : List (Name × Node)) : List (Name × Kind) :=
  nodes.map fun e => (e.1, e.2.kind)

theorem mem_entriesOf (hdistinct : (nodes.map Prod.fst).Nodup) {name : Name} {kind : Kind} :
    (name, kind) ∈ entriesOf nodes ↔ ∃ node, nodes.lookup name = some node ∧ node.kind = kind := by
  constructor
  · intro h
    obtain ⟨⟨name', node⟩, hmem, heq⟩ := List.mem_map.1 h
    obtain ⟨rfl, rfl⟩ := Prod.mk.inj heq
    exact ⟨node, Node.lookup_of_mem hdistinct hmem, rfl⟩
  · rintro ⟨node, hlookup, rfl⟩
    exact List.mem_map.2 ⟨(name, node), Node.mem_of_lookup hlookup, rfl⟩

theorem nodup_names {mode : Nat} (hfind : fs.find p true = .ok (here, .directory mode nodes)) :
    (nodes.map Prod.fst).Nodup := by
  cases fs.wellFormed.get? (get?_of_find hfind) with
  | directory distinct legal inner => exact distinct

/-- A directory lists the same but for the entry that is gone. -/
theorem mem_entriesOf_without (h : Paired fs fs' p here nodes nodes')
    (hwithout : fs.Without fs' l) {name : Name} {kind : Kind} :
    (name, kind) ∈ entriesOf nodes' ↔ (name, kind) ∈ entriesOf nodes ∧ here ++ [name] ≠ l := by
  obtain ⟨mode, hbefore⟩ := h.before
  obtain ⟨mode', hafter⟩ := h.after
  rw [mem_entriesOf (nodup_names hbefore), mem_entriesOf (nodup_names hafter)]
  have hmap (found : Option Node) :
      (∃ node, found = some node ∧ node.kind = kind) ↔ (found.map Node.shell).map Node.kind =
        some kind := by
    cases found <;> simp
  by_cases hl : here ++ [name] = l
  · simp [h.lookup_gone hwithout hl, hl]
  · rw [hmap, hmap, h.shell_lookup hwithout hl]
    simp [hl]

theorem pairwise_mergeSort (entries : List (Name × Kind)) :
    (entries.mergeSort nameLe).Pairwise fun a b => nameLe a b = true := by
  apply List.pairwise_mergeSort
  · intro a b c hab hbc
    simp only [nameLe, decide_eq_true_eq] at hab hbc ⊢
    exact List.le_trans hab hbc
  · intro a b
    simp only [nameLe, Bool.or_eq_true, decide_eq_true_eq]
    exact List.le_total a.1 b.1

/-- Entries of distinct names that stand in the order of these are known by their members. -/
theorem eq_of_sorted {entries entries' : List (Name × Kind)}
    (hdistinct : (entries.map Prod.fst).Nodup) (hdistinct' : (entries'.map Prod.fst).Nodup)
    (hsorted : entries.Pairwise fun a b => nameLe a b = true)
    (hsorted' : entries'.Pairwise fun a b => nameLe a b = true)
    (hmem : ∀ e, e ∈ entries ↔ e ∈ entries') : entries = entries' := by
  have hperm : entries.Perm entries' :=
    (List.perm_ext_iff_of_nodup hdistinct.of_map hdistinct'.of_map).2 hmem
  refine List.Perm.eq_of_pairwise ?_ hsorted hsorted' hperm
  intro a b ha hb hab hba
  simp only [nameLe, decide_eq_true_eq] at hab hba
  -- names that are ordered both ways are one name, and no two entries have it
  exact List.inj_on_of_nodup_map hdistinct ha ((hmem b).2 hb) (List.le_antisymm hab hba)

theorem nodup_names_mergeSort (hdistinct : (nodes.map Prod.fst).Nodup) :
    (((entriesOf nodes).mergeSort nameLe).map Prod.fst).Nodup := by
  rw [((List.mergeSort_perm (entriesOf nodes) nameLe).map Prod.fst).nodup_iff, entriesOf,
    List.map_map]
  exact hdistinct

/-- Sorted by their names, entries of the same names and kinds stand in the same order. -/
theorem mergeSort_entriesOf_congr (hdistinct : (nodes.map Prod.fst).Nodup)
    (hdistinct' : (nodes'.map Prod.fst).Nodup)
    (hkinds : ∀ name, (nodes'.lookup name).map Node.kind = (nodes.lookup name).map Node.kind) :
    (entriesOf nodes').mergeSort nameLe = (entriesOf nodes).mergeSort nameLe := by
  apply eq_of_sorted (nodup_names_mergeSort hdistinct') (nodup_names_mergeSort hdistinct)
    (pairwise_mergeSort _) (pairwise_mergeSort _)
  rintro ⟨name, kind⟩
  rw [List.mem_mergeSort, List.mem_mergeSort, mem_entriesOf hdistinct, mem_entriesOf hdistinct',
    ← Option.map_eq_some_iff, ← Option.map_eq_some_iff]
  exact Eq.congr_left (hkinds name)

/-- Sorted by their names, the entries that are left when one is gone stand in the same order. -/
theorem mergeSort_entriesOf (h : Paired fs fs' p here nodes nodes') (hwithout : fs.Without fs' l) :
    (entriesOf nodes').mergeSort nameLe =
      ((entriesOf nodes).mergeSort nameLe).filter fun e => here ++ [e.1] ≠ l := by
  obtain ⟨mode, hbefore⟩ := h.before
  obtain ⟨mode', hafter⟩ := h.after
  have hdistinct := nodup_names_mergeSort (nodup_names hbefore)
  apply eq_of_sorted (nodup_names_mergeSort (nodup_names hafter))
  · exact hdistinct.sublist (List.filter_sublist.map Prod.fst)
  · exact pairwise_mergeSort _
  · exact (pairwise_mergeSort _).filter _
  · rintro ⟨name, kind⟩
    rw [List.mem_filter, List.mem_mergeSort, List.mem_mergeSort, decide_eq_true_eq]
    exact mem_entriesOf_without h hwithout

theorem listing_of_directory {mode : Nat} (hsorted : r.settings.sorted = true)
    (hfind : fs.find p true = .ok (here, .directory mode nodes)) :
    r.listing fs p = ((entriesOf nodes).mergeSort nameLe).map fun e =>
      .ok ⟨p.child e.1, e.2, false⟩ := by
  have hlist : fs.list p = .ok (entriesOf nodes) := list_eq_ok.2 ⟨here, mode, nodes, hfind, rfl⟩
  simp only [listing, hlist, hsorted, if_true]

/-- What is gone is left out under each name by which the walk comes to it, and no link that is not
left out comes by it. -/
structure Unseen (r : Rules) (fs : FileSystem) (l : Location) : Prop where
  left : ∀ front name here opened, r.settings.Reached fs front (here :: opened) →
    r.Visible front → here ++ [name] = l →
      r.keeps (r.settings.source.below (front ++ [name])) = false
  links : ∀ names, r.settings.Listed fs names → r.Visible names →
    (∃ here target, fs.find (r.settings.source.below names) false = .ok (here, .link target)) →
      fs.Avoids (r.settings.source.below names) l

/-- A node that stays is taken up as before, if it is no link whose way comes by the location. -/
theorem visit_eq_of_avoids {name : Name} {node : Node} (hwithout : fs.Without fs' l)
    (hopened : Opened fs paths (here :: opened)) (hopened' : Opened fs' paths (here :: opened))
    (hpaired : Paired fs fs' (r.settings.source.below front) here nodes nodes')
    (hlookup : nodes.lookup name = some node) (hl : here ++ [name] ≠ l)
    (havoids : ∀ target, fs.find (r.settings.source.below (front ++ [name])) false =
      .ok (here ++ [name], .link target) →
        fs.Avoids (r.settings.source.below (front ++ [name])) l) :
    fs'.glance (r.settings.source.below (front ++ [name])) true =
        fs.glance (r.settings.source.below (front ++ [name])) true ∧
      r.visit fs' paths (r.listed front name node) =
        r.visit fs paths (r.listed front name node) := by
  obtain ⟨mode, hbefore⟩ := hpaired.before
  have hlegal := (asListed_child hbefore hlookup).1
  -- a link is looked at for what it leads to only, and its way does not come by the location
  have hglance (follow : Bool) (hfollow : node.kind = .link → follow = true) :
      fs'.glance (r.settings.source.below (front ++ [name])) follow =
        fs.glance (r.settings.source.below (front ++ [name])) follow := by
    rw [Path.below_concat] at havoids ⊢
    by_cases hkind : node.kind = .link
    · rw [hfollow hkind]
      cases hcheck : checkPath ((r.settings.source.below front).child name) with
      | error e => exact glance_eq_of_checkPath hcheck
      | ok u =>
        obtain ⟨target, rfl⟩ := Node.exists_of_kind_link hkind
        have hfind : fs.find ((r.settings.source.below front).child name) false =
            .ok (here ++ [name], .link target) :=
          (find_child hlegal (bytes_ne_nil_of_find hbefore)).2
            ⟨(checkPath_eq_ok.1 hcheck).2.2, here, mode, nodes, hbefore, hlookup, rfl⟩
        exact hwithout.glance_eq (havoids target hfind) true
    · exact hpaired.glance_child hwithout hl hlookup hkind follow
  refine ⟨hglance true fun _ => rfl, ?_⟩
  apply visit_eq_of_glance hopened hopened' rfl
  apply hglance
  intro hkind
  simp [listed, hkind]

/-- Where the same shows, the same directory can be listed, or none. -/
theorem listing_error_or_paired (r : Rules) (h : fs'.glance p true = fs.glance p true) :
    (∃ e, r.listing fs p = [.error (p, e)] ∧ r.listing fs' p = [.error (p, e)]) ∨
    ∃ here nodes nodes', Paired fs fs' p here nodes nodes' := by
  have hfail {fs : FileSystem} {e : IoError} (h : fs.list p = .error e) :
      r.listing fs p = [.error (p, e)] := by
    simp only [listing, h]
  rcases find_of_glance_eq h with ⟨e, hfind, hfind'⟩ | ⟨here, node, node', hfind, hfind', hshell⟩
  · left
    refine ⟨e, hfail ?_, hfail ?_⟩
    · rw [list, hfind]
      rfl
    · rw [list, hfind']
      rfl
  · by_cases hkind : node.kind = .directory
    · right
      have hkind' : node'.kind = .directory := by
        rw [← Node.kind_shell, hshell, Node.kind_shell, hkind]
      obtain ⟨mode, nodes, rfl⟩ := Node.exists_of_kind_directory hkind
      obtain ⟨mode', nodes', rfl⟩ := Node.exists_of_kind_directory hkind'
      exact ⟨here, nodes, nodes', ⟨mode, hfind⟩, ⟨mode', hfind'⟩⟩
    · left
      obtain rfl := Node.eq_of_shell hshell hkind
      have hlist {fs : FileSystem} (h : fs.find p true = .ok (here, node')) :
          fs.list p = .error (.system .notDirectory) := by
        rw [list, h]
        cases node' with
        | directory mode nodes => exact absurd rfl hkind
        | _ => rfl
      exact ⟨_, hfail (hlist hfind), hfail (hlist hfind')⟩

theorem room_lt_of_entry (r : Rules) {mode : Nat} {name : Name} {node : Node}
    (hfind : fs.find p true = .ok (here, .directory mode nodes))
    (hlookup : nodes.lookup name = some node) : (p.child name).room < p.room :=
  room_lt_of_mem_listing (r := r) ((mem_listing_of_directory hfind).2 ⟨name, node, hlookup, rfl⟩)

/-- What is gone shows in no item that passes: none comes of it, under each name by which the walk
comes to it, and of a node that stays either none comes or it is taken up as before. -/
structure Overlooked (r : Rules) (pass : Except Failure Entry → Bool) (fs fs' : FileSystem)
    (l : Location) : Prop where
  gone : ∀ {front here opened name node paths}, r.Visited fs front here opened name node paths →
    here ++ [name] = l → (r.traverse fs paths (r.listed front name node)).filter pass = []
  stays : ∀ {front here opened name node paths nodes nodes'},
    r.Visited fs front here opened name node paths → Opened fs' paths (here :: opened) →
    Paired fs fs' (r.settings.source.below front) here nodes nodes' → here ++ [name] ≠ l →
      (r.traverse fs' paths (r.listed front name node)).filter pass = [] ∧
        (r.traverse fs paths (r.listed front name node)).filter pass = [] ∨
      fs'.glance (r.settings.source.below (front ++ [name])) true =
          fs.glance (r.settings.source.below (front ++ [name])) true ∧
        r.visit fs' paths (r.listed front name node) = r.visit fs paths (r.listed front name node)

/-- Nothing but stray faults comes of nodes that are left out. -/
theorem Unseen.overlooked (h : r.Unseen fs l) (hwithout : fs.Without fs' l) :
    r.Overlooked (!r.isStray ·) fs fs' l where
  gone := by
    intro front here opened name node paths hv hl
    have hleft := h.left front name here opened hv.reached hv.visible hl
    exact filter_traverse_of_left_out hv.opened hleft
  stays := by
    intro front here opened name node paths nodes nodes' hv hopened' hpaired hl
    cases hkeeps : r.keeps (r.listed front name node).path with
    | false =>
      exact .inl ⟨filter_traverse_of_left_out hopened' hkeeps,
        filter_traverse_of_left_out hv.opened hkeeps⟩
    | true =>
      right
      obtain ⟨mode, hbefore⟩ := hpaired.before
      have hlookup := hv.entry
      rw [get?_concat_of_directory (get?_of_find hbefore)] at hlookup
      apply visit_eq_of_avoids hwithout hv.opened hopened' hpaired hlookup hl
      intro target hfind
      exact h.links (front ++ [name]) ⟨front, name, _, rfl, hv.asListed.1, hv.reached⟩
        (visible_concat.2 ⟨hv.visible, hkeeps⟩) ⟨_, target, hfind⟩

section Overlooked

variable {pass : Except Failure Entry → Bool}

/-- The items of a directory are the same with and without an entry that is overlooked, if those of
its other entries are. -/
theorem filter_listing_eq (hsorted : r.settings.sorted = true) (hwithout : fs.Without fs' l)
    (hoverlooked : r.Overlooked pass fs fs' l)
    (hreached : r.settings.Reached fs front (here :: opened)) (hvisible : r.Visible front)
    (hopened : Opened fs paths (here :: opened))
    (hpaired : Paired fs fs' (r.settings.source.below front) here nodes nodes')
    (hentries : ∀ name node, r.Visited fs front here opened name node paths → here ++ [name] ≠ l →
      (r.traverse fs' paths (r.listed front name node)).filter pass =
        (r.traverse fs paths (r.listed front name node)).filter pass) :
    ((r.listing fs' (r.settings.source.below front)).flatMap (r.traverseItem fs' paths)).filter
        pass =
      ((r.listing fs (r.settings.source.below front)).flatMap (r.traverseItem fs paths)).filter
        pass := by
  obtain ⟨mode, hbefore⟩ := hpaired.before
  obtain ⟨mode', hafter⟩ := hpaired.after
  have hvisited {name : Name} {kind : Kind}
      (hmem : (name, kind) ∈ (entriesOf nodes).mergeSort nameLe) :
      ∃ node, r.Visited fs front here opened name node paths ∧ node.kind = kind := by
    rw [(List.mergeSort_perm _ _).mem_iff, mem_entriesOf (nodup_names hbefore)] at hmem
    obtain ⟨node, hlookup, hkind⟩ := hmem
    rw [← get?_concat_of_directory (get?_of_find hbefore)] at hlookup
    exact ⟨node, ⟨hreached, hvisible, hopened, hlookup⟩, hkind⟩
  rw [listing_of_directory hsorted hbefore, listing_of_directory hsorted hafter,
    mergeSort_entriesOf hpaired hwithout, List.flatMap_map, List.flatMap_map, List.filter_flatMap,
    List.filter_flatMap]
  -- what comes of the entry that is gone is filtered out; each other entry gives what it gave
  apply flatMap_filter_of_nil
  · rintro ⟨name, kind⟩ hmem hkeep
    obtain ⟨node, hv, rfl⟩ := hvisited hmem
    have hentry := hentries name node hv (of_decide_eq_true hkeep)
    rwa [listed, Path.below_concat] at hentry
  · rintro ⟨name, kind⟩ hmem hdrop
    obtain ⟨node, hv, rfl⟩ := hvisited hmem
    have hgone := hoverlooked.gone hv (not_not.1 (of_decide_eq_false hdrop))
    rwa [listed, Path.below_concat] at hgone

/-- A node that stays, and all that is below it, gives the same items that pass. -/
theorem filter_traverse_eq {name : Name} {node : Node} (hsorted : r.settings.sorted = true)
    (hwithout : fs.Without fs' l) (hoverlooked : r.Overlooked pass fs fs' l)
    (hv : r.Visited fs front here opened name node paths)
    (hopened' : Opened fs' paths (here :: opened))
    (hpaired : Paired fs fs' (r.settings.source.below front) here nodes nodes')
    (hl : here ++ [name] ≠ l) :
    (r.traverse fs' paths (r.listed front name node)).filter pass =
      (r.traverse fs paths (r.listed front name node)).filter pass := by
  -- a name more leaves less room in the path, which is why the traversal ends
  induction hroom : (r.listed front name node).path.room using Nat.strongRecOn
    generalizing front here opened paths nodes nodes' name node with
  | ind room ih =>
    subst hroom
    rcases hoverlooked.stays hv hopened' hpaired hl with ⟨hnone', hnone⟩ | ⟨hglance, hvisit⟩
    · rw [hnone, hnone']
    · rw [traverse_eq, traverse_eq, hvisit]
      cases houtcome : r.visit fs paths (r.listed front name node) with
      | item i => rfl
      | nothing => rfl
      | directory p =>
        obtain rfl : p = r.settings.source.below (front ++ [name]) := eq_of_visit houtcome
        simp only [results]
        rcases listing_error_or_paired r hglance with ⟨e, hlist, hlist'⟩ |
          ⟨there, inner, inner', hpaired'⟩
        · rw [hlist, hlist']
          rfl
        · obtain ⟨mode, hfind⟩ := hpaired'.before
          obtain ⟨mode', hfind'⟩ := hpaired'.after
          obtain ⟨hlegal, hlisted⟩ := hv.asListed
          have hkeeps := ((visit_eq_directory hv.opened).1 houtcome).2.1
          have hnext := reached_of_visit hv.reached hv.opened hlegal hlisted rfl houtcome hfind
          apply filter_listing_eq hsorted hwithout hoverlooked hnext
            (visible_concat.2 ⟨hv.visible, hkeeps⟩) (.cons ⟨_, hfind⟩ hv.opened) hpaired'
          intro next child hchild hother
          have hlookup := hchild.entry
          rw [get?_concat_of_directory (get?_of_find hfind)] at hlookup
          have hroom := room_lt_of_entry r hfind hlookup
          rw [← Path.below_concat] at hroom
          exact ih _ hroom hchild (.cons ⟨_, hfind'⟩ hopened') hpaired' hother rfl

theorem filter_results_eq (hsorted : r.settings.sorted = true) (hwithout : fs.Without fs' l)
    (hoverlooked : r.Overlooked pass fs fs' l)
    (hpaired : Paired fs fs' r.settings.source here nodes nodes') :
    (r.results fs' [] (.directory r.settings.source)).filter pass =
      (r.results fs [] (.directory r.settings.source)).filter pass := by
  obtain ⟨mode, hbefore⟩ := hpaired.before
  obtain ⟨mode', hafter⟩ := hpaired.after
  apply filter_listing_eq hsorted hwithout hoverlooked (.source hbefore) visible_nil
    (.cons ⟨_, hbefore⟩ .nil) hpaired
  intro name node hv hl
  exact filter_traverse_eq hsorted hwithout hoverlooked hv (.cons ⟨_, hafter⟩ .nil) hpaired hl

end Overlooked

/-- Where links are not followed, a walk gets to a directory by the names on the way to it. -/
theorem location_of_reached {lsrc : Location} {node : Node}
    (hfollow : r.settings.followLinks = false)
    (hsource : fs.find r.settings.source true = .ok (lsrc, node))
    (h : r.settings.Reached fs front (here :: opened)) : here = lsrc ++ front := by
  generalize hall : here :: opened = all at h
  induction h generalizing here opened with
  | source h =>
    rw [hsource] at h
    cases h
    cases hall
    exact (List.append_nil _).symm
  | @directory front openedAbove name l mode nodes outer legal h ih =>
    cases hall
    obtain ⟨above, opened', rfl⟩ := exists_cons_of_reached outer
    obtain ⟨mode', nodes', habove⟩ := find_of_reached outer
    rw [Path.below_concat, find_child legal (bytes_ne_nil_of_find habove)] at h
    obtain ⟨-, above', mode'', nodes'', habove', -, rfl⟩ := h
    rw [habove] at habove'
    cases habove'
    rw [ih rfl, List.append_assoc]
  | link outer legal followed hlink h noLoop ih =>
    rw [hfollow] at followed
    cases followed

/-- Some names below the source are left out, and no way of the walk shows what stands there: not
the source's own, and none of a link that the walk takes up. Where links are followed, the walk may
come to the place under other names too; they are left out as well. -/
structure Hidden (r : Rules) (fs : FileSystem) (lsrc : Location) (names : List Name) : Prop where
  left : r.keeps (r.settings.source.below names) = false
  source : fs.Avoids r.settings.source (lsrc ++ names)
  links : ∀ front, r.settings.Listed fs front → r.Visible front →
    (∃ here target, fs.find (r.settings.source.below front) false = .ok (here, .link target)) →
      fs.Avoids (r.settings.source.below front) (lsrc ++ names)
  others : r.settings.followLinks = true → ∀ front name here opened,
    r.settings.Reached fs front (here :: opened) → r.Visible front →
      here ++ [name] = lsrc ++ names → front ++ [name] ≠ names →
        r.keeps (r.settings.source.below (front ++ [name])) = false

theorem Hidden.unseen {lsrc : Location} {names : List Name} {node : Node}
    (h : r.Hidden fs lsrc names) (hsource : fs.find r.settings.source true = .ok (lsrc, node)) :
    r.Unseen fs (lsrc ++ names) where
  left := by
    intro front name here opened hreached hvisible hl
    by_cases hsame : front ++ [name] = names
    · rw [hsame]
      exact h.left
    · cases hfollow : r.settings.followLinks with
      | true => exact h.others hfollow front name here opened hreached hvisible hl hsame
      | false =>
        rw [location_of_reached hfollow hsource hreached, List.append_assoc] at hl
        exact absurd (List.append_cancel_left hl) hsame
  links := h.links

theorem filter_results_of_no_stray {lsrc : Location} {mode : Nat}
    (hsource : fs.find r.settings.source true = .ok (lsrc, .directory mode nodes))
    (hnone : r.settings.followLinks = true → ∀ front name, ¬r.Stray fs front name) :
    (r.results fs [] (.directory r.settings.source)).filter (!r.isStray ·) =
      r.results fs [] (.directory r.settings.source) := by
  rw [List.filter_eq_self]
  intro i hi
  rw [Bool.not_eq_true']
  by_contra hstray
  obtain ⟨p, e, rfl, hleft⟩ := isStray_eq_true.1 (eq_true_of_ne_false hstray)
  obtain ⟨hfollow, front, name, hlink, -⟩ := (mem_results_stray hsource).1 ⟨hleft, e, hi⟩
  exact hnone hfollow front name hlink

end Rules

namespace Walk

/-- What is left out of a sorted walk changes none of its items, except for faults that are told of
paths that are left out themselves. Those are told where links are followed, of each link that is
left out and cannot be followed; where there are none, the walk yields the same items. -/
theorem items_without_left_out {s : Settings} {x : Exclusions} {w : Walk} {skips : List Path}
    {r : Rules} {fs fs' : FileSystem} {lsrc : Location} {mode : Nat} {nodes : List (Name × Node)}
    {names : List Name} (hx : s.exclusions = .ok x) (hwalk : Walk.ofSettings s = .ok w)
    (hr : r = ⟨s, x, skips.map Path.normalize⟩) (hsorted : s.sorted = true)
    (hsource : fs.find s.source true = .ok (lsrc, .directory mode nodes))
    (hwithout : fs.Without fs' (lsrc ++ names)) (hhidden : r.Hidden fs lsrc names) :
    ((skips.foldl skip w).items fs').filter (!r.isStray ·) =
        ((skips.foldl skip w).items fs).filter (!r.isStray ·) ∧
      (∀ p, (r.keeps p = false ∧ ∃ e, .error (.walk p e) ∈ (skips.foldl skip w).items fs) ↔
        s.followLinks = true ∧ ∃ front name, r.Stray fs front name ∧
          p = s.source.below (front ++ [name])) ∧
      ((s.followLinks = true → ∀ front name, ¬r.Stray fs front name ∧ ¬r.Stray fs' front name) →
        (skips.foldl skip w).items fs' = (skips.foldl skip w).items fs) := by
  obtain rfl : w = ⟨⟨s, x, []⟩, true, []⟩ := by
    simpa [Walk.ofSettings, hx, bind, Except.bind, eq_comm] using hwalk
  have hskipped : skips.foldl skip ⟨⟨s, x, []⟩, true, []⟩ = ⟨r, true, []⟩ :=
    hr ▸ foldl_skip skips _
  obtain rfl : s = r.settings := hr ▸ rfl
  rw [hskipped, items_of_fresh, items_of_fresh]
  -- the source is a directory in both file systems
  obtain ⟨nodes', hpaired⟩ : ∃ nodes', Paired fs fs' r.settings.source lsrc nodes nodes' := by
    rcases find_of_glance_eq (hwithout.glance_eq hhidden.source true) with
      ⟨e, hfind, -⟩ | ⟨l, node, node', hfind, hfind', hshell⟩
    · rw [hsource] at hfind
      cases hfind
    · rw [hsource] at hfind
      cases hfind
      have hkind : node'.kind = .directory := by
        rw [← Node.kind_shell, hshell, Node.kind_shell]
        rfl
      obtain ⟨mode', nodes', rfl⟩ := Node.exists_of_kind_directory hkind
      exact ⟨nodes', ⟨mode, hsource⟩, ⟨mode', hfind'⟩⟩
  obtain ⟨mode', hsource'⟩ := hpaired.after
  rw [Rules.begin_of_directory hsource, Rules.begin_of_directory hsource']
  have hfilter := Rules.filter_results_eq hsorted hwithout
    ((hhidden.unseen hsource).overlooked hwithout) hpaired
  refine ⟨hfilter, fun p => Rules.mem_results_stray hsource, ?_⟩
  intro hnone
  rwa [Rules.filter_results_of_no_stray hsource fun h front name => (hnone h front name).1,
    Rules.filter_results_of_no_stray hsource' fun h front name => (hnone h front name).2] at hfilter

/-- A directory with a file and a link that leads nowhere and is left out. -/
def danglingTree : FileSystem :=
  .ofEntries 1
    [(.ofString "pkg", .directory 0o755
      [(.ofString "a.txt", .ofBytes 0 [0x61]), (.ofString "x.pdb", .link (.ofString "missing"))])]
    (by cbv)

def danglingRules : Rules :=
  ⟨linkedSettings, plainExclusions, []⟩

theorem find_danglingTree : danglingTree.find linkedSettings.source true =
    .ok ([.ofString "pkg"], .directory 0o755
      [(.ofString "a.txt", .ofBytes 0 [0x61]),
        (.ofString "x.pdb", .link (.ofString "missing"))]) := by
  cbv

/-- The only link in the directory is the one that is left out. -/
theorem entry_danglingTree {name : Name} {l : Location} {node : Node}
    (hlegal : isLegalName name = true)
    (h : danglingTree.find (linkedSettings.source.below [name]) false = .ok (l, node)) :
    node.kind = .file ∨ name = .ofString "x.pdb" := by
  have hchild := (find_child hlegal (Rules.bytes_ne_nil_of_find find_danglingTree)).1 h
  obtain ⟨-, outer, mode, nodes, hfind, hlookup, -⟩ := hchild
  rw [find_danglingTree] at hfind
  cases hfind
  rcases List.mem_cons.1 (Node.mem_of_lookup hlookup) with heq | hmem
  · cases heq
    exact .inl rfl
  · cases List.mem_singleton.1 hmem
    exact .inr rfl

theorem reached_danglingTree {front : List Name} {opened : List Location}
    (h : linkedSettings.Reached danglingTree front opened) :
    front = [] ∧ opened = [[.ofString "pkg"]] := by
  have hblocked : danglingTree.find (linkedSettings.source.below [.ofString "x.pdb"]) true =
      .error (.system .noEntry) := by cbv
  induction h with
  | source h =>
    rw [find_danglingTree] at h
    cases h
    exact ⟨rfl, rfl⟩
  | directory outer legal h ih =>
    obtain ⟨rfl, -⟩ := ih
    rcases entry_danglingTree legal h with hkind | rfl
    · cases hkind
    · cases hblocked.symm.trans (find_true_of_ne_link h (by simp [Node.kind]))
  | link outer legal followed hlink h noLoop ih =>
    obtain ⟨rfl, -⟩ := ih
    rcases entry_danglingTree legal hlink with hkind | rfl
    · cases hkind
    · rw [List.nil_append, hblocked] at h
      cases h

theorem hidden_danglingTree :
    danglingRules.Hidden danglingTree [.ofString "pkg"] [.ofString "x.pdb"] where
  left := by cbv
  source := by
    have hway : danglingTree.way linkedSettings.source = [[], [.ofString "pkg"]] := by cbv
    intro stop hstop
    rw [show danglingRules.settings.source = linkedSettings.source from rfl, hway] at hstop
    rcases List.mem_cons.1 hstop with rfl | hstop
    · decide
    · obtain rfl := List.mem_singleton.1 hstop
      decide
  links := by
    rintro front ⟨outer, name, opened, rfl, hlegal, hreached⟩ hvisible ⟨here, target, hlink⟩
    obtain ⟨rfl, -⟩ := reached_danglingTree hreached
    rcases entry_danglingTree hlegal hlink with hkind | rfl
    · cases hkind
    · have hkeeps := hvisible [.ofString "x.pdb"] (by simp) (List.prefix_refl _)
      have hleft : danglingRules.keeps (linkedSettings.source.below [.ofString "x.pdb"]) =
          false := by
        cbv
      exact absurd (hkeeps.symm.trans hleft) (by simp)
  others := by
    intro hfollow front name here opened hreached hvisible hl hother
    obtain ⟨rfl, hopened⟩ := reached_danglingTree hreached
    cases hopened
    exact absurd (List.append_cancel_left hl) hother

theorem items_without_left_out_dangling :
    ∃ w, Walk.ofSettings linkedSettings = .ok w ∧
      (∃ e, .error (.walk (.ofString "/pkg/x.pdb") e) ∈ w.items danglingTree) ∧
      (w.items (danglingTree.erase [.ofString "pkg", .ofString "x.pdb"])).filter
          (!danglingRules.isStray ·) =
        (w.items danglingTree).filter (!danglingRules.isStray ·) := by
  have hx : linkedSettings.exclusions = .ok plainExclusions := by cbv
  have hwalk : Walk.ofSettings linkedSettings =
      .ok ⟨⟨linkedSettings, plainExclusions, []⟩, true, []⟩ := by cbv
  have hwithout := without_erase (l := [.ofString "pkg", .ofString "x.pdb"]) (by simp) danglingTree
  have hrules : danglingRules = ⟨linkedSettings, plainExclusions, [].map Path.normalize⟩ := rfl
  obtain ⟨hfilter, hstray, -⟩ := items_without_left_out hx hwalk hrules rfl find_danglingTree
    hwithout hidden_danglingTree
  have hblocked : danglingTree.find (linkedSettings.source.below [.ofString "x.pdb"]) true =
      .error (.system .noEntry) := by cbv
  have hlink : danglingRules.Stray danglingTree [] (.ofString "x.pdb") := by
    refine ⟨Rules.visible_nil, hidden_danglingTree.left, _, _, .ofString "missing",
      .source find_danglingTree, by cbv, ?_⟩
    intro l node hfind
    rw [List.nil_append] at hfind
    cases hblocked.symm.trans hfind
  exact ⟨_, hwalk, ((hstray _).2 ⟨rfl, _, _, hlink, rfl⟩).2, hfilter⟩

/-- The name of the file that stands beside the link. -/
def plainRelative : RelativePath :=
  .ofName "a.txt" rfl

theorem items_of_one_visit {r : Rules} {fs : FileSystem} {v : Visit} {i : Except Failure Entry}
    (hbegin : r.begin fs = .directory r.settings.source)
    (hlisting : r.listing fs r.settings.source = [.ok v])
    (hvisit : r.visit fs [r.settings.source] v = .item i) : items fs ⟨r, true, []⟩ = [i] := by
  rw [items_of_fresh, hbegin, Rules.results, hlisting, List.flatMap_singleton, Rules.traverseItem,
    Rules.traverse_eq, hvisit, Rules.results]

/-- A link that is left out and leads nowhere is told of, and no more so once it is gone. -/
theorem left_out_link_is_told_of :
    danglingRules.Hidden danglingTree [.ofString "pkg"] [.ofString "x.pdb"] ∧
    danglingTree.Without (danglingTree.erase [.ofString "pkg", .ofString "x.pdb"])
      [.ofString "pkg", .ofString "x.pdb"] ∧
    ∃ w, Walk.ofSettings linkedSettings = .ok w ∧ linkedSettings.sorted = true ∧
      .error (.walk (.ofString "/pkg/x.pdb") (.system .noEntry)) ∈ w.items danglingTree ∧
      w.items (danglingTree.erase [.ofString "pkg", .ofString "x.pdb"]) =
        [.ok ⟨.ofString "/pkg/a.txt", plainRelative, 1⟩] := by
  have hwalk : Walk.ofSettings linkedSettings = .ok ⟨danglingRules, true, []⟩ := by cbv
  have hbegin : danglingRules.begin danglingTree = .directory danglingRules.settings.source := by
    cbv
  have hmem : .ok ⟨.ofString "/pkg/x.pdb", .link, false⟩ ∈
      danglingRules.listing danglingTree danglingRules.settings.source := by
    have hlisting : danglingRules.listing danglingTree danglingRules.settings.source =
        [.ok ⟨.ofString "/pkg/a.txt", .file, false⟩,
          .ok ⟨.ofString "/pkg/x.pdb", .link, false⟩] := by cbv
    rw [hlisting]
    exact List.mem_cons_of_mem _ (List.mem_singleton_self _)
  have hvisit : danglingRules.visit danglingTree [danglingRules.settings.source]
      ⟨.ofString "/pkg/x.pdb", .link, false⟩ =
        .item (.error (.walk (.ofString "/pkg/x.pdb") (.system .noEntry))) := by cbv
  have hbegin' : danglingRules.begin (danglingTree.erase [.ofString "pkg", .ofString "x.pdb"]) =
      .directory danglingRules.settings.source := by cbv
  have hlisting' : danglingRules.listing (danglingTree.erase [.ofString "pkg", .ofString "x.pdb"])
      danglingRules.settings.source = [.ok ⟨.ofString "/pkg/a.txt", .file, false⟩] := by cbv
  have hvisit' : danglingRules.visit (danglingTree.erase [.ofString "pkg", .ofString "x.pdb"])
      [danglingRules.settings.source] ⟨.ofString "/pkg/a.txt", .file, false⟩ =
        .item (.ok ⟨.ofString "/pkg/a.txt", plainRelative, 1⟩) := by
    have hkeeps : danglingRules.keeps (.ofString "/pkg/a.txt") = true := by cbv
    have hleaf : danglingRules.leaf (danglingTree.erase [.ofString "pkg", .ofString "x.pdb"])
        ⟨.ofString "/pkg/a.txt", .file, false⟩ =
          .item (.ok ⟨.ofString "/pkg/a.txt", plainRelative, 1⟩) := by cbv
    simp [Rules.visit, Rules.look, hkeeps, hleaf]
  refine ⟨hidden_danglingTree, without_erase (by simp) danglingTree, _, hwalk, rfl, ?_, ?_⟩
  · rw [items_of_fresh, hbegin]
    refine List.mem_flatMap.2 ⟨_, hmem, ?_⟩
    rw [Rules.traverseItem, Rules.traverse_eq, hvisit]
    exact List.mem_singleton_self _
  · exact items_of_one_visit hbegin' hlisting' hvisit'

end Walk

end TreeArchive
