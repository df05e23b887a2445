import TreeArchive.Proofs.ChangedBelow
import TreeArchive.Proofs.WalkOrder

/-!
A walk is lazy. It reads a directory when it comes there, and nothing of it before: up to an item, a
sorted walk has looked at nothing that stands below a later directory. So a change below such a
directory is seen by the walk that goes on from that item as it is seen by one from the start.
-/
namespace TreeArchive

open FileSystem

/-- A location is not on the way to one that comes before it. -/
theorem Location.not_prefix {l here there : Location} (hle : here ≤ there) (hlt : there < l) :
    ¬l <+: here := by
  intro hinit
  have hself : l ≤ there := List.le_trans hinit.le hle
  exact List.lt_irrefl l (List.lt_of_le_of_lt hself hlt)

namespace FileSystem

/-- A change below a directory that comes after the names below a source; where the source leads is
not touched. -/
structure Ahead (fs fs' : FileSystem) (source : Path) (names : List Name) (l : Location) : Prop where
  noLinks : fs.NoLinks
  changed : fs.ChangedBelow fs' l
  later : ∀ base, fs.LeadsTo source base → base ++ names < l
  source : fs'.glance source true = fs.glance source true

variable {fs fs' : FileSystem} {source : Path} {names front : List Name} {l here base : Location}
  {nodes nodes' : List (Name × Node)} {node : Node}

/-- A source path that does not go up leads where it led. -/
theorem NoLinks.ahead (hlinks : fs.NoLinks) (hchanged : fs.ChangedBelow fs' l)
    (hlater : ∀ base, fs.StandsAt source base → base ++ names < l)
    (hsource : .parent ∈ source.components → fs'.glance source true = fs.glance source true) :
    fs.Ahead fs' source names l := by
  by_cases hparent : .parent ∈ source.components
  · refine ⟨hlinks, hchanged, ?_, hsource hparent⟩
    intro base hbase
    exact hlater base (by rwa [StandsAt, if_pos hparent])
  · have hspelled : fs.spelled source ++ names < l :=
      hlater _ (by rw [StandsAt, if_neg hparent])
    refine ⟨hlinks, hchanged, ?_, ?_⟩
    · intro base hbase
      rwa [hlinks.spelled_of_leadsTo hparent hbase]
    · -- the way is straight down to a location that comes before the directory
      have hne : l ≠ [] := by
        rintro rfl
        exact List.not_lt_nil _ hspelled
      apply (hchanged.nothingAdded hne).glance_eq
      apply hlinks.avoids hparent
      exact Location.not_prefix (List.prefix_append _ names).le hspelled

namespace Ahead

/-- The directory is not on the way to names that do not come after the given ones. -/
theorem not_prefix (h : fs.Ahead fs' source names l) (hbase : fs.LeadsTo source base)
    (hle : front ≤ names) : ¬l <+: base ++ front :=
  Location.not_prefix (List.append_left_le hle) (h.later base hbase)

/-- The entries of a directory on the way are the same, but for what they hold. -/
theorem shell_lookup (h : fs.Ahead fs' source names l) (hsource : source.bytes ≠ [])
    (hlegal : ∀ n ∈ front, isLegalName n = true) (hle : front ≤ names)
    (hpaired : Paired fs fs' (source.below front) here nodes nodes') (name : Name) :
    (nodes'.lookup name).map Node.shell = (nodes.lookup name).map Node.shell := by
  obtain ⟨mode, hbefore⟩ := hpaired.before
  obtain ⟨mode', hafter⟩ := hpaired.after
  rw [← get?_concat_of_directory (get?_of_find hafter),
    ← get?_concat_of_directory (get?_of_find hbefore)]
  apply h.changed.shell
  intro hinit
  -- an entry of a directory on the way may be the changed one, and is not below it
  obtain ⟨base, hbase, rfl⟩ := h.noLinks.location_below hsource hlegal hbefore
  rcases List.prefix_concat_iff.1 hinit with heq | hinit
  · exact heq.symm
  · exact absurd hinit (h.not_prefix hbase hle)

/-- What is found under a name on the way shows as before. -/
theorem glance_child (h : fs.Ahead fs' source names l) (hsource : source.bytes ≠ [])
    (hlegal : ∀ n ∈ front, isLegalName n = true) (hle : front ≤ names) {name : Name} {mode : Nat}
    (hfind : fs.find (source.below front) true = .ok (here, .directory mode nodes))
    (hglance : fs'.glance (source.below front) true = fs.glance (source.below front) true)
    (hlookup : nodes.lookup name = some node) (follow : Bool) :
    fs'.glance (source.below (front ++ [name])) follow =
      fs.glance (source.below (front ++ [name])) follow := by
  have hkind : node.kind ≠ .link := by
    rw [← get?_concat_of_directory (get?_of_find hfind)] at hlookup
    exact h.noLinks.kind_ne hlookup
  rcases find_of_glance_eq hglance with ⟨e, hfail, -⟩ | ⟨l, node, node', hfound, hfound', hshell⟩
  · cases hfind.symm.trans hfail
  · cases hfind.symm.trans hfound
    have hdir : node'.kind = .directory := by
      rw [← Node.kind_shell, hshell]
      rfl
    obtain ⟨mode', nodes', rfl⟩ := Node.exists_of_kind_directory hdir
    have hpaired : Paired fs fs' (source.below front) here nodes nodes' :=
      ⟨⟨mode, hfind⟩, ⟨mode', hfound'⟩⟩
    rw [Path.below_concat]
    exact hpaired.glance_child_of_shell (h.shell_lookup hsource hlegal hle hpaired name) hlookup
      hkind follow

/-- Names on the way lead to the same location, and the same shows there. -/
theorem glance_below (h : fs.Ahead fs' source names l) (hsource : source.bytes ≠ [])
    (hlegal : ∀ n ∈ front, isLegalName n = true) (hle : front ≤ names)
    (hfind : fs.find (source.below front) true = .ok (here, node)) :
    fs'.glance (source.below front) true = fs.glance (source.below front) true := by
  -- by induction from the source down, as each name is looked up in what the others lead to
  induction front using List.reverseRecOn generalizing here node with
  | nil => exact h.source
  | append_singleton front name ih =>
    obtain ⟨hfront, hname⟩ := List.forall_mem_append.1 hlegal
    have hshorter : front ≤ names :=
      List.le_trans (List.prefix_append front [name]).le hle
    rw [Path.below_concat, ← h.noLinks.find_eq] at hfind
    obtain ⟨-, outer, mode, nodes, houter, hlookup, -⟩ :=
      (find_child (hname name List.mem_cons_self) (bytes_below_ne_nil hsource hfront)).1 hfind
    exact h.glance_child hsource hfront hshorter houter (ih hfront hshorter houter) hlookup true

end Ahead

end FileSystem

namespace Rules

variable {r : Rules} {fs fs' : FileSystem} {names front : List Name} {l : Location}
  {paths : List Path} {v : Visit} {directory : Path}

/-- What a walk begins with hangs on nothing but where its source leads when it is followed. -/
theorem begin_eq (r : Rules) (fs : FileSystem) : r.begin fs =
    match fs.find r.settings.source true with
    | .error e => .item (.error (r.failure ⟨some r.settings.source, e⟩))
    | .ok (_, node) =>
      if node.kind = .directory then .directory r.settings.source else .nothing := by
  have hlook (kind : Kind) (hkind : kind ≠ .link) : r.look fs [] ⟨r.settings.source, kind, false⟩ =
      .ok ⟨r.settings.source, kind, false⟩ := if_neg fun h => hkind h.2
  unfold begin
  simp only
  cases hfind : fs.find r.settings.source false with
  | error e =>
    rcases fs.find_follow r.settings.source with ⟨l, node, hlink, -⟩ | hsame
    · cases hfind.symm.trans hlink
    · rw [hsame, hfind]
  | ok found =>
    obtain ⟨l, node⟩ := found
    by_cases hkind : node.kind = .link
    · -- the link is followed when it is looked at, or else once it is known to be one
      simp only [hkind, look, follow]
      cases hfollowed : fs.find r.settings.source true with
      | error e => by_cases hfollow : r.settings.followLinks = true <;> simp [hfollow]
      | ok target =>
        obtain ⟨l', node'⟩ := target
        by_cases hfollow : r.settings.followLinks = true
        · cases node' <;> simp [hfollow, Node.kind, checkLoop, bind, Except.bind]
        · cases node' <;> simp [hfollow, Node.kind]
    · have hfollowed := find_true_of_ne_link hfind hkind
      simp only [hfollowed, hlook node.kind hkind, hkind, if_false]

theorem begin_of_glance (h : fs'.glance r.settings.source true = fs.glance r.settings.source true) :
    r.begin fs' = r.begin fs := by
  rw [begin_eq, begin_eq]
  rcases find_of_glance_eq h with ⟨e, hfind, hfind'⟩ | ⟨l, node, node', hfind, hfind', hshell⟩
  · rw [hfind, hfind']
  · have hkind : node'.kind = node.kind := by rw [← Node.kind_shell, hshell, Node.kind_shell]
    simp only [hfind, hfind', hkind]

theorem visit_of_ne_link (hkind : v.kind ≠ .link) : r.visit fs paths v =
    if !r.keeps v.path then .nothing
    else if v.kind = .directory then .directory v.path
    else r.leaf fs v := by
  have hlook : r.look fs paths v = .ok v := if_neg fun h => hkind h.2
  rw [visit, hlook]

/-- A directory on the way is listed as before. -/
theorem listing_of_ahead (h : fs.Ahead fs' r.settings.source names l)
    (hsorted : r.settings.sorted = true) (hsource : r.settings.source.bytes ≠ [])
    (hlegal : ∀ n ∈ front, isLegalName n = true) (hle : front ≤ names)
    (hglance : fs'.glance (r.settings.source.below front) true =
      fs.glance (r.settings.source.below front) true) :
    r.listing fs' (r.settings.source.below front) =
      r.listing fs (r.settings.source.below front) := by
  rcases listing_error_or_paired r hglance with ⟨e, hbefore, hafter⟩ | ⟨here, nodes, nodes', hpaired⟩
  · rw [hbefore, hafter]
  · obtain ⟨mode, hbefore⟩ := hpaired.before
    obtain ⟨mode', hafter⟩ := hpaired.after
    have hkinds (name : Name) :
        (nodes'.lookup name).map Node.kind = (nodes.lookup name).map Node.kind := by
      have hshell := h.shell_lookup hsource hlegal hle hpaired name
      simpa [Function.comp_def] using congrArg (Option.map Node.kind) hshell
    rw [listing_of_directory hsorted hbefore, listing_of_directory hsorted hafter,
      mergeSort_entriesOf_congr (nodup_names hbefore) (nodup_names hafter) hkinds]

/-- A node that is listed on the way is no link, and the same shows at its path. -/
theorem glance_of_lists (h : fs.Ahead fs' r.settings.source names l)
    (hsource : r.settings.source.bytes ≠ []) (hne : front ≠ [])
    (hlegal : ∀ n ∈ front, isLegalName n = true) (hle : front ≤ names)
    (hlists : Lists fs directory v) (hpath : v.path = r.settings.source.below front)
    (follow : Bool) : v.kind ≠ .link ∧ fs'.glance v.path follow = fs.glance v.path follow := by
  obtain ⟨here, mode, nodes, name, node, hfind, hlookup, rfl⟩ := hlists
  have hget : fs.get? (here ++ [name]) = nodes.lookup name :=
    get?_concat_of_directory (get?_of_find hfind) name
  have hname := (asListed_child hfind hlookup).1
  refine ⟨h.noLinks.kind_ne (hget.trans hlookup), ?_⟩
  cases hcheck : checkPath (directory.child name) with
  | error e => exact glance_eq_of_checkPath hcheck
  | ok u =>
    -- the path leads to the entry, so it leads there by the names below the source too
    have hentry : fs.find (directory.child name) false = .ok (here ++ [name], node) :=
      (find_child hname (bytes_ne_nil_of_find hfind)).2
        ⟨(checkPath_eq_ok.1 hcheck).2.2, here, mode, nodes, hfind, hlookup, rfl⟩
    obtain ⟨front, last, rfl⟩ := (List.eq_nil_or_concat' front).resolve_left hne
    obtain ⟨hfront, hlast⟩ := List.forall_mem_append.1 hlegal
    have hshorter : front ≤ names := List.le_trans (List.prefix_append front [last]).le hle
    simp only at hpath
    rw [hpath, Path.below_concat] at hentry
    obtain ⟨-, outer, mode', nodes', houter, hlookup', -⟩ :=
      (find_child (hlast last List.mem_cons_self) (bytes_below_ne_nil hsource hfront)).1 hentry
    have hglance := h.glance_below hsource hfront hshorter houter
    simp only
    rw [hpath]
    exact h.glance_child hsource hfront hshorter houter hglance hlookup' follow

end Rules

namespace Walk

open Rules

/-- A walk whose steps were taken on one file system, which it may go on with. -/
structure Poised (fs : FileSystem) (w : Walk) : Prop where
  settled : Settled fs w
  below : w.BelowSource
  entered : w.stack ≠ [] → w.rules.settings.source.bytes ≠ []

variable {fs fs' : FileSystem} {w w' : Walk} {names : List Name} {l : Location}
  {i : Except Failure Entry}

theorem poised_of_fresh (fs : FileSystem) (r : Rules) : Poised fs ⟨r, true, []⟩ where
  settled := settled_of_fresh fs r
  below := belowSource_of_fresh r
  entered := fun h => absurd rfl h

theorem Poised.step (h : Poised fs w) (hstep : (w.step fs).walk? = some w') : Poised fs w' := by
  refine ⟨h.settled.step hstep, (belowSource_step h.below hstep).1, ?_⟩
  intro hstack
  rw [rules_of_step hstep]
  obtain ⟨rules, fresh, stack⟩ := w
  cases fresh with
  | false =>
    apply h.entered
    rintro rfl
    cases hstep
  | true =>
    -- a walk that has just begun has a directory open only if its source is one
    obtain rfl : stack = [] := h.settled.fresh rfl
    rcases rules.begin_cases fs with ⟨j, hitem, -⟩ | ⟨-, here, mode, nodes, hfind⟩ | hnothing
    · simp only [Walk.step, if_true, hitem, after, Step.walk?] at hstep
      cases hstep
      exact absurd rfl hstack
    · exact bytes_ne_nil_of_find hfind
    · simp only [Walk.step, if_true, hnothing, after, Step.walk?] at hstep
      cases hstep
      exact absurd rfl hstack

/-- The step to a path that does not come after the given names does not see the change. -/
theorem Poised.step_eq (h : Poised fs w) (hahead : fs.Ahead fs' w.rules.settings.source names l)
    (hsorted : w.rules.settings.sorted = true)
    (hnext : ∀ front, (∀ n ∈ front, isLegalName n = true) →
      w.todo.head? = some (w.rules.settings.source.below front) → front ≤ names) :
    w.step fs' = w.step fs := by
  obtain ⟨rules, fresh, stack⟩ := w
  cases fresh with
  | true =>
    have hbegin : after ⟨rules, false, stack⟩ fs' (rules.begin fs') =
        after ⟨rules, false, stack⟩ fs (rules.begin fs) := by
      rw [begin_of_glance hahead.source]
      apply after_congr
      intro p hp
      rcases rules.begin_cases fs with ⟨j, hitem, -⟩ | ⟨-, here, mode, nodes, hfind⟩ | hnothing
      · cases hp.symm.trans hitem
      · have hlisting : rules.listing fs' (rules.settings.source.below []) =
            rules.listing fs (rules.settings.source.below []) :=
          listing_of_ahead hahead hsorted (bytes_ne_nil_of_find hfind) (List.forall_mem_nil _)
            (List.nil_le names) hahead.source
        rw [eq_of_begin hp]
        exact hlisting
      · cases hp.symm.trans hnothing
    exact hbegin
  | false =>
    match stack, h, hnext with
    | [], h, hnext => rfl
    | ⟨directory, []⟩ :: outer, h, hnext => rfl
    | ⟨directory, .error (p, e) :: pending⟩ :: outer, h, hnext => rfl
    | ⟨directory, .ok v :: pending⟩ :: outer, h, hnext =>
      have hsource := h.entered (List.cons_ne_nil _ _)
      have hlists := h.settled.lists _ List.mem_cons_self v List.mem_cons_self
      obtain ⟨front, hne, hlegal, hpath⟩ := h.below _ List.mem_cons_self v List.mem_cons_self
      have hle : front ≤ names := hnext front hlegal (congrArg some hpath)
      have hglance (follow : Bool) :=
        glance_of_lists hahead hsource hne hlegal hle hlists hpath follow
      have hkind : v.kind ≠ .link := (hglance true).1
      have hvisit (paths : List Path) : rules.visit fs' paths v = rules.visit fs paths v := by
        rw [visit_of_ne_link hkind, visit_of_ne_link hkind, leaf_eq_of_glance (hglance _).2]
      have hgoes : after ⟨rules, false, ⟨directory, pending⟩ :: outer⟩ fs'
          (rules.visit fs' (directory :: outer.map Frame.directory) v) =
            after ⟨rules, false, ⟨directory, pending⟩ :: outer⟩ fs
              (rules.visit fs (directory :: outer.map Frame.directory) v) := by
        rw [hvisit]
        apply after_congr
        intro p hp
        -- the directory that is listed is the node itself
        rw [eq_of_visit hp, hpath]
        apply listing_of_ahead hahead hsorted hsource hlegal hle
        rw [← hpath]
        exact (hglance true).2
      exact hgoes

/-- What stands first among what is to be taken up does not come after any item to come. -/
theorem Sorted.head_le {sorted : List (List Name)} (h : w.Sorted sorted)
    (hsorted : w.rules.settings.sorted = true) {front : List Name}
    (hlegal : ∀ n ∈ names, isLegalName n = true) (hfront : ∀ n ∈ front, isLegalName n = true)
    (hitem : (w.rules.settings.source.below names, i) ∈ w.located fs)
    (hhead : w.todo.head? = some (w.rules.settings.source.below front)) : front ≤ names := by
  have hordinary {back : List Name} (hback : ∀ n ∈ back, isLegalName n = true) (n : Name)
      (hn : n ∈ back) : Path.Ordinary n := Path.ordinary_of_isLegalName (hback n hn)
  obtain ⟨rest, htodo⟩ := List.head?_eq_some_iff.1 hhead
  obtain ⟨first, later, rfl, hfirst, -⟩ := h.exists_cons htodo
  obtain rfl : front = first := Path.below_injective (hordinary hfront)
    (hordinary (h.legal first List.mem_cons_self)) hfirst
  obtain ⟨found, hfound, hfrom⟩ := h.located hsorted fs
  have hmem : w.rules.settings.source.below names ∈ (w.located fs).map Prod.fst :=
    List.mem_map.2 ⟨_, hitem, rfl⟩
  rw [hfound.below] at hmem
  obtain ⟨n, hn, heq⟩ := List.mem_map.1 hmem
  obtain rfl : n = names :=
    Path.below_injective (hordinary (hfound.legal n hn)) (hordinary hlegal) heq
  -- the item comes of the first path, or of one that forks off later
  obtain ⟨origin, horigin, hinit⟩ := hfrom n hn
  rcases List.mem_cons.1 horigin with rfl | horigin
  · exact hinit.le
  · obtain ⟨more, rfl⟩ := hinit
    have hfork := (List.pairwise_cons.1 h.forks).1 origin horigin
    apply List.le_of_lt
    simpa using (hfork.extend [] more).lt

/-- The items of some pulls and the walk behind them, where there are so many items. -/
def pulled (fs : FileSystem) : Nat → Walk → Option (List (Except Failure Entry) × Walk)
  | 0, w => some ([], w)
  | k + 1, w => do
    let (i, w) ← w.next fs
    let (items, w) ← w.pulled fs k
    some (i :: items, w)

theorem pulled_of_moved (h : w.step fs = .moved w') (k : Nat) :
    w.pulled fs (k + 1) = w'.pulled fs (k + 1) := by
  simp only [pulled, next_step fs w, h]

theorem pulled_of_yielded (h : w.step fs = .yielded i w') (k : Nat) :
    w.pulled fs (k + 1) = (w'.pulled fs k).map fun x => (i :: x.1, x.2) := by
  simp only [pulled, next_step fs w, h, Option.bind_eq_bind, Option.bind_some]
  cases w'.pulled fs k <;> rfl

/-- Up to an item a walk goes the same way before and after the change. -/
theorem Poised.pulled (h : Poised fs w) (hahead : fs.Ahead fs' w.rules.settings.source names l)
    (hsorted : w.rules.settings.sorted = true) {sorted : List (List Name)}
    (horder : w.Sorted sorted) (hlegal : ∀ n ∈ names, isLegalName n = true) {k : Nat}
    (hitem : (w.located fs)[k]? = some (w.rules.settings.source.below names, i)) :
    ∃ pulled rest, w.pulled fs (k + 1) = some (pulled, rest) ∧
      (w.items fs).take (k + 1) = pulled ∧ (w.items fs').take (k + 1) = pulled ∧
      (w.items fs').drop (k + 1) = rest.items fs' := by
  -- until the item is there, what is taken up next does not come after it, and each step keeps that
  induction w using run_induct fs generalizing k sorted with
  | h w ih =>
    have hstep_eq : w.step fs' = w.step fs := by
      apply h.step_eq hahead hsorted
      intro front hfront hhead
      exact horder.head_le hsorted hlegal hfront (List.mem_of_getElem? hitem) hhead
    have hitems := items_step fs' w
    rw [hstep_eq] at hitems
    rw [located_step] at hitem
    rw [hitems, items_step fs w]
    cases hstep : w.step fs with
    | finished =>
      rw [hstep] at hitem
      cases hitem
    | moved w' =>
      have hwalk := walk?_of_moved hstep
      have hrules := rules_of_step hwalk
      obtain ⟨sorted', horder', -⟩ := horder.moved hsorted hstep
      rw [hstep, ← hrules] at hitem
      rw [pulled_of_moved hstep]
      exact ih w' hwalk (h.step hwalk) (by rwa [hrules]) (by rwa [hrules]) horder' hitem
    | yielded j w' =>
      have hwalk := walk?_of_yielded hstep
      have hrules := rules_of_step hwalk
      obtain ⟨front, later, rfl, -, horder'⟩ := horder.yielded hstep
      rw [hstep, ← hrules] at hitem
      rw [pulled_of_yielded hstep]
      cases k with
      | zero => exact ⟨[j], w', rfl, by simp, by simp, by simp⟩
      | succ k =>
        -- the item is one of those behind the first, of which there are `k` before it
        obtain ⟨pulled, rest, hpulled, htake, htake', hdrop⟩ :=
          ih w' hwalk (h.step hwalk) (by rwa [hrules]) (by rwa [hrules]) horder' hitem
        refine ⟨j :: pulled, rest, ?_, ?_, ?_, ?_⟩
        · rw [hpulled]
          rfl
        · rw [List.take_succ_cons, htake]
        · rw [List.take_succ_cons, htake']
        · exact hdrop

/-- After any number of pulls from a sorted walk, a change below a directory that comes after the
path which the last item is told of is seen as if the walk had begun behind it: the items so far are
those that a walk of the changed file system yields first, and what is still to come are the others.
A source path that goes up must lead where it led. -/
theorem later_change_is_seen {s : Settings} {w : Walk} (hsorted : s.sorted = true)
    (hwalk : Walk.ofSettings s = .ok w) (skips : List Path) {fs fs' : FileSystem} {l : Location}
    {k : Nat} {p : Path} {i : Except Failure Entry} (hlinks : fs.NoLinks)
    (hchanged : fs.ChangedBelow fs' l)
    (hitem : ((skips.foldl skip w).located fs)[k]? = some (p, i))
    (hlater : fs.ComesAfter s.source p l)
    (hsource : .parent ∈ s.source.components →
      fs'.glance s.source true = fs.glance s.source true) :
    let walk := skips.foldl skip w
    Concerns s.root p i ∧ ∃ pulled rest, walk.pulled fs (k + 1) = some (pulled, rest) ∧
      pulled[k]? = some i ∧
      (walk.items fs).take (k + 1) = pulled ∧ (walk.items fs').take (k + 1) = pulled ∧
      (walk.items fs').drop (k + 1) = rest.items fs' := by
  obtain ⟨x, hx, rfl⟩ := ofSettings_eq_ok.1 hwalk
  have hskipped : skips.foldl skip ⟨⟨s, x, []⟩, true, []⟩ =
      ⟨⟨s, x, skips.map Path.normalize⟩, true, []⟩ := foldl_skip skips _
  simp only [hskipped] at hitem ⊢
  have hfresh := sorted_of_fresh ⟨s, x, skips.map Path.normalize⟩
  -- the item is told of a path below the source, and the names of that path are compared
  obtain ⟨found, hfound, -⟩ := hfresh.located hsorted fs
  have hmem : p ∈ (located fs ⟨⟨s, x, skips.map Path.normalize⟩, true, []⟩).map Prod.fst :=
    List.mem_map.2 ⟨_, List.mem_of_getElem? hitem, rfl⟩
  rw [hfound.below] at hmem
  obtain ⟨names, hnames, rfl⟩ := List.mem_map.1 hmem
  have hlegal := hfound.legal names hnames
  have hcomponents : (s.source.below names).components =
      s.source.components ++ names.map .normal :=
    Path.components_below fun n hn => Path.ordinary_of_isLegalName (hlegal n hn)
  have hahead : fs.Ahead fs' s.source names l :=
    hlinks.ahead hchanged (fun base hbase => hlater base names hbase hcomponents) hsource
  have hconcerns : Concerns s.root (s.source.below names) i :=
    (settled_of_fresh fs _).located _ (List.mem_of_getElem? hitem)
  obtain ⟨pulled, rest, hpulled, htake, htake', hdrop⟩ :=
    (poised_of_fresh fs _).pulled hahead hsorted hfresh hlegal hitem
  refine ⟨hconcerns, pulled, rest, hpulled, ?_, htake, htake', hdrop⟩
  rw [← htake, List.getElem?_take_of_lt (Nat.lt_succ_self k), ← map_snd_located, List.getElem?_map,
    hitem]
  rfl

/-- What comes of the first node in the source comes first. -/
theorem located_of_first {fs : FileSystem} {r : Rules} {v : Visit}
    {pending : List (Except (Path × IoError) Visit)} {i : Except Failure Entry}
    (hbegin : r.begin fs = .directory r.settings.source)
    (hlisting : r.listing fs r.settings.source = .ok v :: pending)
    (hvisit : r.visit fs [r.settings.source] v = .item i) :
    (located fs ⟨r, true, []⟩)[0]? = some (v.path, i) := by
  have hfirst : Walk.step ⟨r, true, []⟩ fs =
      .moved ⟨r, false, [⟨r.settings.source, .ok v :: pending⟩]⟩ := by
    simp [Walk.step, hbegin, after, push, hlisting]
  have hsecond : Walk.step ⟨r, false, [⟨r.settings.source, .ok v :: pending⟩]⟩ fs =
      .yielded i ⟨r, false, [⟨r.settings.source, pending⟩]⟩ := by
    simp [Walk.step, after, opened, hvisit]
  rw [located_step, hfirst]
  simp only
  rw [located_step, hsecond]
  simp [todo, pathOf]

/-- A directory with a file and a directory, and a directory beside it. -/
def besideTree : FileSystem :=
  .ofEntries 2
    [(.ofString "pkg", .directory 0o755
      [(.ofString "a.txt", .ofBytes 0 [0x61]),
        (.ofString "b", .directory 0o755 [(.ofString "c.txt", .ofBytes 1 [0x63])])]),
      (.ofString "z", .directory 0o755 [(.ofString "y", .directory 0o755 [])])]
    (by cbv)

def besideRules (source : Path) : Rules :=
  ⟨Settings.forRoot source, plainExclusions, []⟩

def besideSource : Path :=
  .ofString "/pkg"

/-- The same directory, by way of the one beside it. -/
def windingSource : Path :=
  .ofString "/pkg/../z/y/../../pkg"

def firstEntry (source : Path) : Entry :=
  ⟨source.child (.ofString "a.txt"), plainRelative, 1⟩

theorem noLinks_besideTree : besideTree.NoLinks :=
  noLinks_of_count (by cbv)

/-- The walk of either source starts with the file in the directory. -/
theorem first_of_besideTree {source : Path}
    (hsource : source = besideSource ∨ source = windingSource) :
    (located besideTree ⟨besideRules source, true, []⟩)[0]? =
        some (source.child (.ofString "a.txt"), .ok (firstEntry source)) ∧
      (items besideTree ⟨besideRules source, true, []⟩).take 1 = [.ok (firstEntry source)] := by
  have hbegin : (besideRules source).begin besideTree = .directory source := by
    rcases hsource with rfl | rfl <;> cbv
  have hlisting : (besideRules source).listing besideTree source =
      [.ok ⟨source.child (.ofString "a.txt"), .file, false⟩,
        .ok ⟨source.child (.ofString "b"), .directory, false⟩] := by
    rcases hsource with rfl | rfl <;> cbv
  have hvisit : (besideRules source).visit besideTree [source]
      ⟨source.child (.ofString "a.txt"), .file, false⟩ = .item (.ok (firstEntry source)) := by
    have hkeeps : (besideRules source).keeps (source.child (.ofString "a.txt")) = true := by
      rcases hsource with rfl | rfl <;> cbv
    have hleaf : (besideRules source).leaf besideTree
        ⟨source.child (.ofString "a.txt"), .file, false⟩ = .item (.ok (firstEntry source)) := by
      rcases hsource with rfl | rfl <;> cbv
    simp [visit_of_ne_link, hkeeps, hleaf]
  refine ⟨located_of_first hbegin hlisting hvisit, ?_⟩
  rw [items_of_next (next_of_first hbegin hlisting hvisit)]
  rfl

theorem later_change_is_seen_removed :
    let fs' := besideTree.erase [.ofString "pkg", .ofString "b", .ofString "c.txt"]
    ∃ w, Walk.ofSettings (Settings.forRoot besideSource) = .ok w ∧
      ∃ rest, w.pulled besideTree 1 = some ([.ok (firstEntry besideSource)], rest) ∧
        (w.items fs').take 1 = [.ok (firstEntry besideSource)] ∧
        (w.items fs').drop 1 = rest.items fs' := by
  have hwalk : Walk.ofSettings (Settings.forRoot besideSource) =
      .ok ⟨besideRules besideSource, true, []⟩ := by cbv
  obtain ⟨hitem, hfirst⟩ := first_of_besideTree (.inl rfl)
  have hplain : .parent ∉ besideSource.components := by
    have hcomponents : besideSource.components = [.root, .normal (.ofString "pkg")] := by cbv
    simp [hcomponents]
  have hlater : besideTree.ComesAfter besideSource (besideSource.below [.ofString "a.txt"])
      [.ofString "pkg", .ofString "b"] := by
    have hstands (there : Location) (h : besideTree.StandsAt besideSource there) :
        there = [.ofString "pkg"] := by
      rw [StandsAt, if_neg hplain] at h
      rw [h]
      cbv
    exact comesAfter_below hstands (by decide) (by decide)
  have hchanged := (sameElsewhere_erase besideTree
    ([.ofString "pkg", .ofString "b"] ++ [.ofString "c.txt"])).changedBelow
  obtain ⟨-, pulled, rest, hpulled, -, htake, htake', hdrop⟩ := later_change_is_seen rfl hwalk []
    noLinks_besideTree hchanged hitem hlater fun h => absurd h hplain
  obtain rfl := hfirst.symm.trans htake
  exact ⟨_, hwalk, rest, hpulled, htake', hdrop⟩

/-- Where the source path goes through the later directory and up again, a change there takes the
whole source away. The directory is later by the path's own components too. -/
theorem later_change_moves_source :
    let fs' := besideTree.erase [.ofString "z", .ofString "y"]
    let p := windingSource.child (.ofString "a.txt")
    ∃ w, Walk.ofSettings (Settings.forRoot windingSource) = .ok w ∧ besideTree.NoLinks ∧
      besideTree.ChangedBelow fs' [.ofString "z"] ∧
      besideTree.ComesAfter windingSource p [.ofString "z"] ∧
      p.components.take 2 = [.root, .normal (.ofString "pkg")] ∧
      (Location.toPath [.ofString "z"]).components = [.root, .normal (.ofString "z")] ∧
      Name.ofString "pkg" < Name.ofString "z" ∧
      (w.located besideTree)[0]? = some (p, .ok (firstEntry windingSource)) ∧
      ¬∃ pulled rest, w.pulled besideTree 1 = some (pulled, rest) ∧
        (w.items besideTree).take 1 = pulled ∧ (w.items fs').take 1 = pulled ∧
        (w.items fs').drop 1 = rest.items fs' := by
  have hwalk : Walk.ofSettings (Settings.forRoot windingSource) =
      .ok ⟨besideRules windingSource, true, []⟩ := by cbv
  obtain ⟨hitem, hfirst⟩ := first_of_besideTree (.inr rfl)
  have hchanged := (sameElsewhere_erase besideTree
    ([.ofString "z"] ++ [.ofString "y"])).changedBelow
  have hparent : .parent ∈ windingSource.components := by
    have hcomponents : windingSource.components = [.root, .normal (.ofString "pkg"), .parent,
        .normal (.ofString "z"), .normal (.ofString "y"), .parent, .parent,
        .normal (.ofString "pkg")] := by cbv
    simp [hcomponents]
  have hfind : ∃ node, besideTree.find windingSource true = .ok ([.ofString "pkg"], node) :=
    ⟨_, by cbv⟩
  have hlater : besideTree.ComesAfter windingSource (windingSource.below [.ofString "a.txt"])
      [.ofString "z"] := by
    have hstands (there : Location) (h : besideTree.StandsAt windingSource there) :
        there = [.ofString "pkg"] := by
      rw [StandsAt, if_pos hparent] at h
      obtain ⟨node, hnode⟩ := hfind
      obtain ⟨node', hnode'⟩ := h
      cases hnode.symm.trans hnode'
      rfl
    exact comesAfter_below hstands (by decide) (by decide)
  refine ⟨_, hwalk, noLinks_besideTree, hchanged, hlater, by cbv, by cbv, by decide, hitem, ?_⟩
  rintro ⟨pulled, rest, -, htake, htake', -⟩
  have hbegin : (besideRules windingSource).begin
      (besideTree.erase [.ofString "z", .ofString "y"]) =
        .item (.error (.walk windingSource (.system .noEntry))) := by cbv
  rw [← htake, hfirst, items_of_fresh, hbegin] at htake'
  cases htake'

end Walk

end TreeArchive
