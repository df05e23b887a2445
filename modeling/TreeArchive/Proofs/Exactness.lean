import Mathlib
import TreeArchive.FileSystem.Literal
import TreeArchive.Proofs.Reached

/-! A walk yields exactly the files that it should, and each of them once. -/
namespace TreeArchive

open FileSystem

/-- The path of an entry that came as an item. -/
def yieldedPath : Except Failure Entry → Option Path
  | .ok e => some e.path
  | .error _ => none

theorem nodup_item (i : Except Failure Entry) : ([i].filterMap yieldedPath).Nodup := by
  cases i with
  | error f => exact List.nodup_nil
  | ok e => exact List.nodup_singleton e.path

namespace Rules

variable {r : Rules} {fs : FileSystem} {paths : List Path} {v : Visit} {p : Path}

theorem path_of_visit {e : Entry} (h : r.visit fs paths v = .item (.ok e)) : e.path = v.path := by
  rcases file_of_visit h with ⟨p, f, heq⟩ | ⟨-, l, data, -, heq⟩
  · cases heq
  · cases hrelative : RelativePath.fromRoot v.path r.settings.root with
    | error f =>
      rw [hrelative] at heq
      cases heq
    | ok relative =>
      rw [hrelative] at heq
      cases heq
      rfl

/-- Entries stand at the visited node or below it. -/
theorem below_of_mem_traverse {q : Path} (h : q ∈ (r.traverse fs paths v).filterMap yieldedPath) :
    ∃ names, (∀ n ∈ names, Path.Ordinary n) ∧ q = v.path.below names := by
  induction hroom : v.path.room using Nat.strongRecOn generalizing paths v with
  | ind room ih =>
    subst hroom
    rw [traverse_eq] at h
    cases hvisit : r.visit fs paths v with
    | nothing => simp [hvisit, results] at h
    | item i =>
      cases i with
      | error f => simp [hvisit, results, yieldedPath] at h
      | ok e =>
        obtain rfl : q = e.path := by simpa [hvisit, results, yieldedPath] using h
        exact ⟨[], by simp, path_of_visit hvisit⟩
    | directory p =>
      obtain rfl := eq_of_visit hvisit
      rw [hvisit, results, List.filterMap_flatMap] at h
      obtain ⟨item, hitem, h⟩ := List.mem_flatMap.1 h
      rcases mem_listing.1 hitem with ⟨e, -, rfl⟩ | ⟨entries, name, kind, hlist, hmem, rfl⟩
      · simp [traverseItem, yieldedPath] at h
      · -- below an entry of the directory is below the directory by one name more
        obtain ⟨names, hnames, rfl⟩ := ih _ (room_lt_of_mem_listing hitem) h rfl
        have hname := Path.ordinary_of_isLegalName (legal_of_mem_list hlist hmem)
        exact ⟨name :: names, List.forall_mem_cons.2 ⟨hname, hnames⟩, rfl⟩

/-- No two nodes of a listing have one path. -/
theorem pairwise_listing (r : Rules) (fs : FileSystem) (p : Path) :
    (r.listing fs p).Pairwise fun x y => ∀ v w, x = .ok v → y = .ok w → v.path ≠ w.path := by
  unfold listing
  cases hlist : fs.list p with
  | error e => simp
  | ok entries =>
    -- sorting changes the order and nothing else
    have hperm :
        (if r.settings.sorted then entries.mergeSort nameLe else entries).Perm entries := by
      split
      · exact List.mergeSort_perm entries nameLe
      · exact .refl _
    have hdistinct : (entries.map Prod.fst).Nodup := by
      obtain ⟨l, mode, nodes, hfind, rfl⟩ := list_eq_ok.1 hlist
      rw [List.map_map]
      cases fs.wellFormed.get? (get?_of_find hfind) with
      | directory distinct legal inner => exact distinct
    have hpairwise := List.pairwise_map.1 ((hperm.map Prod.fst).nodup_iff.2 hdistinct)
    refine List.pairwise_map.2 (hpairwise.imp_of_mem ?_)
    rintro ⟨a, ka⟩ ⟨b, kb⟩ ha hb hne v w hv hw heq
    cases hv
    cases hw
    have hlegal {name : Name} {kind : Kind}
        (hmem : (name, kind) ∈ if r.settings.sorted then entries.mergeSort nameLe else entries) :
        ∀ n ∈ [name], Path.Ordinary n := by
      rw [List.forall_mem_singleton]
      exact Path.ordinary_of_isLegalName (legal_of_mem_list hlist (hperm.mem_iff.1 hmem))
    exact hne (List.singleton_inj.1 (Path.below_injective (hlegal ha) (hlegal hb) heq))

/-- Items of a whole listing have different paths if those of each of its nodes have. -/
theorem nodup_listing (hnode : ∀ v, .ok v ∈ r.listing fs p →
      ((r.traverse fs paths v).filterMap yieldedPath).Nodup) :
    (((r.listing fs p).flatMap (r.traverseItem fs paths)).filterMap yieldedPath).Nodup := by
  rw [List.filterMap_flatMap, List.nodup_flatMap]
  refine ⟨?_, (r.pairwise_listing fs p).imp_of_mem ?_⟩
  · intro item hitem
    cases item with
    | error e => exact nodup_item _
    | ok v => exact hnode v hitem
  · -- entries of two nodes stand below two names of one directory
    intro x y hx hy hne q hqx hqy
    rcases mem_listing.1 hx with ⟨e, -, rfl⟩ | ⟨entries, a, ka, hlist, hmemA, rfl⟩
    · simp [traverseItem, yieldedPath] at hqx
    · rcases mem_listing.1 hy with ⟨e, -, rfl⟩ | ⟨entries', b, kb, hlist', hmemB, rfl⟩
      · simp [traverseItem, yieldedPath] at hqy
      · obtain ⟨front, hfront, rfl⟩ := below_of_mem_traverse hqx
        obtain ⟨back, hback, heq⟩ := below_of_mem_traverse hqy
        have ha := Path.ordinary_of_isLegalName (legal_of_mem_list hlist hmemA)
        have hb := Path.ordinary_of_isLegalName (legal_of_mem_list hlist' hmemB)
        have hnames : a :: front = b :: back :=
          Path.below_injective (p := p) (List.forall_mem_cons.2 ⟨ha, hfront⟩)
            (List.forall_mem_cons.2 ⟨hb, hback⟩) heq
        obtain ⟨rfl, rfl⟩ := List.cons.inj hnames
        exact hne _ _ rfl rfl rfl

theorem nodup_traverse (r : Rules) (fs : FileSystem) (paths : List Path) (v : Visit) :
    ((r.traverse fs paths v).filterMap yieldedPath).Nodup := by
  induction hroom : v.path.room using Nat.strongRecOn generalizing paths v with
  | ind room ih =>
    subst hroom
    rw [traverse_eq]
    cases hvisit : r.visit fs paths v with
    | nothing => simp [results]
    | item i => exact nodup_item i
    | directory p =>
      obtain rfl := eq_of_visit hvisit
      exact nodup_listing fun child hchild =>
        ih _ (room_lt_of_mem_listing hchild) _ child rfl

theorem nodup_results_begin (r : Rules) (fs : FileSystem) :
    ((r.results fs [] (r.begin fs)).filterMap yieldedPath).Nodup := by
  cases r.begin fs with
  | nothing => simp [results]
  | item i => exact nodup_item i
  | directory p => exact nodup_listing fun v _ => r.nodup_traverse fs _ v

end Rules

open Text

namespace Settings

/-- Neither a pattern nor a skipped path leaves out the path through some names below the source.
The source is below the root by the names `base`; a path whose relative form is no text has no
relative path, and so no pattern matches it. -/
structure Admitted (s : Settings) (x : Exclusions) (skips : List Path) (base names : List Name) :
    Prop where
  unmatched : ∀ relative : RelativePath, relative.components.map Utf8.encode = base ++ names →
    x.excludes relative = false
  unskipped : ∀ p ∈ skips, (s.source.below names).normalize ≠ p.normalize

/-- An entry that a walk is to yield for the file at some names below the source. -/
structure Selected (s : Settings) (x : Exclusions) (skips : List Path) (base : List Name)
    (fs : FileSystem) (names : List Name) (e : Entry) : Prop where
  listed : s.Listed fs names
  visible : ∀ front, front ≠ [] → front <+: names → s.Admitted x skips base front
  file : ∃ l data, fs.find (s.source.below names) true = .ok (l, .file data) ∧
    e.size = data.content.size
  path : e.path = s.source.below names
  relative : e.relative.components.map Utf8.encode = base ++ names

variable {s : Settings} {x : Exclusions} {skips : List Path} {base names : List Name}

/-- A path below the source by legal names is below the root by these and the source's own. -/
theorem components_below_source
    (hbase : s.source.components = s.root.components ++ base.map .normal)
    (hnames : ∀ n ∈ names, isLegalName n = true) :
    (s.source.below names).components = s.root.components ++ (base ++ names).map .normal := by
  rw [Path.components_below fun n hn => Path.ordinary_of_isLegalName (hnames n hn), hbase,
    List.append_assoc, List.map_append]

theorem keeps_below_source (hbase : s.source.components = s.root.components ++ base.map .normal)
    (hnames : ∀ n ∈ names, isLegalName n = true) (hne : names ≠ []) :
    Rules.keeps ⟨s, x, skips.map Path.normalize⟩ (s.source.below names) = true ↔
      s.Admitted x skips base names := by
  have hcomponents := components_below_source hbase hnames
  have hnonempty : base ++ names ≠ [] := List.append_ne_nil_of_right_ne_nil base hne
  simp only [Rules.keeps_eq_true, RelativePath.fromRoot_eq_ok hcomponents hnonempty,
    List.forall_mem_map]
  exact ⟨fun h => ⟨h.2, h.1⟩, fun h => ⟨h.unskipped, h.unmatched⟩⟩

theorem visible_iff_admitted (hbase : s.source.components = s.root.components ++ base.map .normal)
    (hnames : ∀ n ∈ names, isLegalName n = true) :
    Rules.Visible ⟨s, x, skips.map Path.normalize⟩ names ↔
      ∀ front, front ≠ [] → front <+: names → s.Admitted x skips base front := by
  apply forall_congr'
  intro front
  apply forall_congr'
  intro hne
  apply forall_congr'
  intro hinit
  exact keeps_below_source hbase (fun n hn => hnames n (hinit.subset hn)) hne

theorem itemOf_eq_ok {e : Entry} {data : FileData}
    (hbase : s.source.components = s.root.components ++ base.map .normal)
    (hnames : ∀ n ∈ names, isLegalName n = true) (hne : names ≠ []) :
    .ok e = Rules.itemOf ⟨s, x, skips.map Path.normalize⟩ names data ↔
      e.path = s.source.below names ∧ e.relative.components.map Utf8.encode = base ++ names ∧
        e.size = data.content.size := by
  have hcomponents := components_below_source hbase hnames
  have hnonempty : base ++ names ≠ [] := List.append_ne_nil_of_right_ne_nil base hne
  rw [← RelativePath.fromRoot_eq_ok hcomponents hnonempty]
  unfold Rules.itemOf
  obtain ⟨path, relative, size⟩ := e
  cases hrelative : RelativePath.fromRoot (s.source.below names) s.root with
  | ok found => simp [hrelative, Except.map, eq_comm]
  | error f => simp [hrelative, Except.map]

end Settings

namespace Walk

theorem foldl_skip (skips : List Path) (w : Walk) : skips.foldl skip w =
    { w with rules.skipped := w.rules.skipped ++ skips.map Path.normalize } := by
  induction skips generalizing w with
  | nil => simp
  | cons p rest ih =>
    rw [List.foldl_cons, ih]
    simp [skip]

theorem items_of_fresh (fs : FileSystem) (r : Rules) :
    items fs ⟨r, true, []⟩ = r.results fs [] (r.begin fs) := by
  simp [items_eq_traversed, traversed, opened, Rules.pendingItems]

/-- Apart from its faults a new walk yields an item for every file that its rules find. -/
theorem mem_items_of_fresh {fs : FileSystem} {r : Rules} {i : Except Failure Entry}
    (hi : ¬Rules.IsFault i) : i ∈ items fs ⟨r, true, []⟩ ↔
      ∃ names data, r.Found fs names data ∧ i = r.itemOf names data := by
  rw [items_of_fresh, Rules.mem_results_begin hi]

/-- A walk that is pulled to its end, past all failures, yields an entry for each file that is
selected, for no other, and for each of them once. -/
theorem yields_exactly_selected {s : Settings} {x : Exclusions} {w : Walk} {base : List Name}
    (hx : s.exclusions = .ok x) (hwalk : Walk.ofSettings s = .ok w)
    (hbase : s.source.components = s.root.components ++ base.map .normal) (skips : List Path)
    (fs : FileSystem) :
    (∀ e, .ok e ∈ (skips.foldl skip w).items fs ↔ ∃ names, s.Selected x skips base fs names e) ∧
      (((skips.foldl skip w).items fs).filterMap yieldedPath).Nodup := by
  obtain rfl : w = ⟨⟨s, x, []⟩, true, []⟩ := by
    simpa [Walk.ofSettings, hx, bind, Except.bind, eq_comm] using hwalk
  have hskipped : skips.foldl skip ⟨⟨s, x, []⟩, true, []⟩ =
      ⟨⟨s, x, skips.map Path.normalize⟩, true, []⟩ := foldl_skip skips _
  rw [hskipped]
  refine ⟨?_, by rw [items_of_fresh]; exact Rules.nodup_results_begin _ fs⟩
  intro e
  rw [mem_items_of_fresh (Rules.not_isFault_ok e)]
  -- what a walk finds by its rules is what is selected, once its paths are read below the root
  constructor
  · intro h
    obtain ⟨names, data, ⟨hlisted, hvisible, l, hfind⟩, hitem⟩ := h
    rw [Settings.itemOf_eq_ok hbase hlisted.legal hlisted.ne_nil] at hitem
    rw [Settings.visible_iff_admitted hbase hlisted.legal] at hvisible
    obtain ⟨hpath, hrelative, hsize⟩ := hitem
    exact ⟨names, hlisted, hvisible, ⟨l, data, hfind, hsize⟩, hpath, hrelative⟩
  · intro h
    obtain ⟨names, hlisted, hvisible, ⟨l, data, hfind, hsize⟩, hpath, hrelative⟩ := h
    rw [← Settings.visible_iff_admitted hbase hlisted.legal] at hvisible
    refine ⟨names, data, ⟨hlisted, hvisible, l, hfind⟩, ?_⟩
    rw [Settings.itemOf_eq_ok hbase hlisted.legal hlisted.ne_nil]
    exact ⟨hpath, hrelative, hsize⟩

/-- The patterns that are in use where none are given. -/
def plainExclusions : Exclusions :=
  ⟨[⟨"*.pdb", false, true, [Glob.compile "*.pdb".toList]⟩]⟩

/-- A directory with a link to a directory in it and a link back to itself. -/
def linkedTree : FileSystem :=
  .ofEntries 2
    [(.ofString "pkg", .directory 0o755
      [(.ofString "a.txt", .ofBytes 0 [0x61]), (.ofString "out", .link (.ofString "sub")),
        (.ofString "loop", .link (.ofString "/pkg")),
        (.ofString "sub", .directory 0o755 [(.ofString "b.txt", .ofBytes 1 [0x62, 0x62])])])]
    (by cbv)

def linkedSettings : Settings :=
  { Settings.forRoot (.ofString "/pkg") with followLinks := true }

def linkedRelative : RelativePath :=
  ⟨["out".toList, "b.txt".toList], by simp, by decide⟩

theorem yields_exactly_selected_followed_link :
    ∃ w, Walk.ofSettings linkedSettings = .ok w ∧
      .ok ⟨.ofString "/pkg/out/b.txt", linkedRelative, 2⟩ ∈
        ([Path.ofString "/pkg/sub/../a.txt"].foldl skip w).items linkedTree := by
  have hx : linkedSettings.exclusions = .ok plainExclusions := by cbv
  have hwalk : Walk.ofSettings linkedSettings =
      .ok ⟨⟨linkedSettings, plainExclusions, []⟩, true, []⟩ := by cbv
  have hbase : linkedSettings.source.components =
      linkedSettings.root.components ++ ([] : List Name).map .normal := by cbv
  obtain ⟨mode, nodes, hsource⟩ : ∃ mode nodes, linkedTree.find linkedSettings.source true =
      .ok ([.ofString "pkg"], .directory mode nodes) := ⟨_, _, by cbv⟩
  obtain ⟨mode', nodes', hsub⟩ : ∃ mode nodes,
      linkedTree.find (linkedSettings.source.below [.ofString "out"]) true =
        .ok ([.ofString "pkg", .ofString "sub"], .directory mode nodes) := ⟨_, _, by cbv⟩
  refine ⟨_, hwalk, ((yields_exactly_selected hx hwalk hbase _ linkedTree).1 _).2
    ⟨[.ofString "out", .ofString "b.txt"], ?_, ?_, ?_, by cbv, by cbv⟩⟩
  · exact ⟨[.ofString "out"], .ofString "b.txt", _, rfl, by cbv,
      .link (.source hsource) (by cbv) (by cbv) (by cbv) hsub (by decide)⟩
  · intro front hne hinit
    obtain ⟨rest, rfl, hrest⟩ := (List.prefix_cons_iff.1 hinit).resolve_left hne
    rcases List.prefix_cons_iff.1 hrest with rfl | ⟨last, rfl, hlast⟩
    · refine ⟨?_, List.forall_mem_singleton.2 (by decide)⟩
      intro found hfound
      obtain rfl : found = ⟨["out".toList], by simp, by decide⟩ :=
        RelativePath.ext_encode (hfound.trans (by cbv))
      cbv
    · obtain rfl := List.prefix_nil.1 hlast
      refine ⟨?_, List.forall_mem_singleton.2 (by decide)⟩
      intro found hfound
      obtain rfl : found = linkedRelative := RelativePath.ext_encode (hfound.trans (by cbv))
      cbv
  · exact ⟨[.ofString "pkg", .ofString "sub", .ofString "b.txt"],
      ⟨1, 0o644, .ofBytes ⟨⟨[0x62, 0x62]⟩⟩, none⟩, by cbv, by cbv⟩

end Walk

end TreeArchive
