import TreeArchive.Proofs.LeftOut
import TreeArchive.Proofs.Pulled
import TreeArchive.Proofs.Reopened

/-!
A relative path behind the root that it was taken from. It has the components of the path that was
there before, so the file that is packed is the file that was found.
-/
namespace TreeArchive

open FileSystem Text

namespace Path

/-- The components of a path that stands behind a root. Behind the empty root a leading `.` says
nothing, and it is left out. -/
def componentsBehind (root p : Path) : List Component :=
  if root.bytes.isEmpty then p.components.filter (· != .current) else p.components

/-- Only the empty path has no components. -/
theorem bytes_eq_nil_of_components {p : Path} (h : p.components = []) : p.bytes = [] := by
  rcases p.components_eq with ⟨-, -, hroot⟩ | ⟨-, -, hcurrent⟩ | ⟨habsolute, hdot, hnames⟩
  · rw [h] at hroot
    cases hroot
  · rw [h] at hcurrent
    cases hcurrent
  · -- no segment names anything, and the first of them is no `.`, so it is the only one
    have hblank (part : Name) (hpart : part ∈ p.segments) : isBlank part = true := by
      rw [h] at hnames
      have hnone := List.filter_eq_nil_iff.1 (List.map_eq_nil_iff.1 hnames.symm) part hpart
      simpa using hnone
    have hhead : p.segments.head? = some [] := by
      obtain ⟨first, rest, hsegments⟩ :=
        List.exists_cons_of_ne_nil (pieces_ne_nil (· == slash) p.bytes)
      change p.segments = first :: rest at hsegments
      have hfirst := hblank first (by rw [hsegments]; exact List.mem_cons_self)
      rw [hsegments] at hdot ⊢
      simp only [isBlank, Bool.or_eq_true, List.isEmpty_iff, beq_iff_eq] at hfirst
      rcases hfirst with rfl | rfl
      · rfl
      · exact absurd rfl hdot
    have hjoined := join_pieces slash p.bytes
    change join slash p.segments = p.bytes at hjoined
    rw [← hjoined, segments_of_head?_nil habsolute hhead]
    rfl

/-- A `.` is a component at the start and nowhere else. -/
theorem current_not_mem_of_append {p : Path} {front back : List Component} (hfront : front ≠ [])
    (h : p.components = front ++ back) : .current ∉ back := by
  have hnamed (parts : List Name) : .current ∉ parts.map Component.ofName := by
    intro hmem
    obtain ⟨part, -, hpart⟩ := List.mem_map.1 hmem
    unfold Component.ofName at hpart
    split at hpart <;> cases hpart
  obtain ⟨first, rest, rfl⟩ := List.exists_cons_of_ne_nil hfront
  intro hmem
  have htail : .current ∈ p.components.tail := by
    rw [h, List.cons_append, List.tail_cons]
    exact List.mem_append_right rest hmem
  rcases p.components_eq with ⟨-, -, heq⟩ | ⟨-, -, heq⟩ | ⟨-, -, heq⟩
  · rw [heq, List.tail_cons] at htail
    exact hnamed _ htail
  · rw [heq, List.tail_cons] at htail
    exact hnamed _ htail
  · rw [heq] at htail
    exact hnamed _ (List.mem_of_mem_tail htail)

end Path

namespace RelativePath

variable {p q root : Path} {r r' : RelativePath}

theorem components_resolve (r : RelativePath) (root : Path) : (r.resolve root).components =
    root.components ++ (r.components.map Utf8.encode).map .normal := by
  rw [resolve_eq_below]
  exact Path.components_below fun _ => ordinary_encode

/-- Behind its root again, a relative form is the path that it was taken from. -/
theorem componentsBehind_resolve (h : fromRoot p root = .ok r) :
    root.componentsBehind (r.resolve root) = root.componentsBehind p := by
  obtain ⟨relative, hcomponents, hread⟩ := exists_of_fromRoot h
  have hnames := filter_of_readComponents hread
  rw [Path.componentsBehind, Path.componentsBehind, components_resolve, hcomponents, ← hnames]
  by_cases hroot : root.components = []
  · -- behind the empty root the components are compared without a leading `.`
    rw [Path.bytes_eq_nil_of_components hroot, hroot]
    simp
  · -- the root has the only place where a `.` is a component
    have hsome : root.bytes ≠ [] := by
      intro hempty
      obtain ⟨bytes⟩ := root
      obtain rfl : bytes = [] := hempty
      exact hroot rfl
    have hcurrent := Path.current_not_mem_of_append hroot hcomponents
    have hself : relative.components.filter (· != .current) = relative.components := by
      apply List.filter_eq_self.2
      intro c hc
      rw [bne_iff_ne]
      rintro rfl
      exact hcurrent hc
    rw [if_neg (by simpa using hsome), if_neg (by simpa using hsome), hself]

/-- Whatever it was built from, a relative path is found again behind every root. -/
theorem fromRoot_resolve (r : RelativePath) (root : Path) :
    fromRoot (r.resolve root) root = .ok r :=
  (fromRoot_eq_ok (r.components_resolve root) r.encoded_ne_nil).2 rfl

end RelativePath

namespace Walk

/-- What has become of a walk when some items have been pulled from it, each on the file system as
it was at that moment. -/
inductive Later (w : Walk) : Walk → Prop where
  | start : Later w w
  | pulled {v v' : Walk} {fs : FileSystem} {i : Except Failure Entry} (h : Later w v)
      (hnext : v.next fs = some (i, v')) : Later w v'

variable {s : Settings} {w v v' : Walk} {fs : FileSystem} {e : Entry}

theorem Later.belowSource (h : w.Later v) (hw : w.BelowSource) :
    v.BelowSource ∧ v.rules = w.rules := by
  induction h with
  | start => exact ⟨hw, rfl⟩
  | pulled h hnext ih =>
    obtain ⟨hv', hrules, -⟩ := sighted_of_next ih.1 hnext
    exact ⟨hv', hrules.trans ih.2⟩

/-- An entry has the relative form of its path and the size of the file there, and behind the root
its path leads wherever it leads in the first place, unless it is too long. -/
theorem found_of_next (hwalk : Walk.ofSettings s = .ok w) (skips : List Path)
    (hlater : (skips.foldl skip w).Later v) (hnext : v.next fs = some (.ok e, v')) :
    RelativePath.fromRoot e.path s.root = .ok e.relative ∧
      (∃ l data, fs.find e.path true = .ok (l, .file data) ∧ data.content.size = e.size) ∧
      ((e.relative.resolve s.root).bytes.length < maxPath → ∀ (fs' : FileSystem) (follow : Bool),
        fs'.find (e.relative.resolve s.root) follow = fs'.find e.path follow) := by
  obtain ⟨x, -, rfl⟩ := ofSettings_eq_ok.1 hwalk
  rw [foldl_skip] at hlater
  obtain ⟨hv, hrules⟩ := hlater.belowSource (belowSource_of_fresh _)
  obtain ⟨-, -, hitem⟩ := sighted_of_next hv hnext
  rcases hitem with hfault | ⟨names, data, hsighted, hitem⟩
  · exact absurd hfault (Rules.not_isFault_ok e)
  · rw [Rules.ok_eq_itemOf, hrules] at hitem
    obtain ⟨hrelative, hpath, hsize⟩ := hitem
    obtain ⟨l, hfile⟩ := hsighted.file
    rw [hrules] at hfile
    rw [hpath]
    refine ⟨hrelative, ⟨l, data, hfile, hsize.symm⟩, ?_⟩
    intro hshort fs' follow
    apply find_resolve hsighted.ne_nil hsighted.legal hrelative _ hshort
    exact (find_walk hfile).1

/-- Behind a root a relative form names the path that it was taken from, and no other path has it;
it is found again there. So the path by which a run opens an entry is the path by which its walk
came to it, whatever has happened to the file system before and happens in between. -/
theorem packed_path_is_found_path :
    (∀ (p root : Path) (r : RelativePath), RelativePath.fromRoot p root = .ok r →
      root.componentsBehind (r.resolve root) = root.componentsBehind p) ∧
    (∀ (p q root : Path) (r r' : RelativePath), RelativePath.fromRoot p root = .ok r →
      RelativePath.fromRoot q root = .ok r' → r.text = r'.text →
        root.componentsBehind p = root.componentsBehind q) ∧
    (∀ (root : Path) (r : RelativePath), RelativePath.fromRoot (r.resolve root) root = .ok r) ∧
    ∀ (s : Settings) (w v v' : Walk) (skips : List Path) (fs : FileSystem) (e : Entry),
      Walk.ofSettings s = .ok w → (skips.foldl skip w).Later v →
      v.next fs = some (.ok e, v') →
        s.root.componentsBehind (e.relative.resolve s.root) = s.root.componentsBehind e.path ∧
        (∃ l data, fs.find e.path true = .ok (l, .file data) ∧ data.content.size = e.size) ∧
        ((e.relative.resolve s.root).bytes.length < maxPath →
          ∀ (fs' : FileSystem) (follow : Bool),
            fs'.find (e.relative.resolve s.root) follow = fs'.find e.path follow) := by
  refine ⟨?_, ?_, ?_, ?_⟩
  · intro p root r h
    exact RelativePath.componentsBehind_resolve h
  · intro p q root r r' h h' htext
    obtain rfl := RelativePath.eq_of_text_eq htext
    calc
      root.componentsBehind p = root.componentsBehind (r.resolve root) :=
        (RelativePath.componentsBehind_resolve h).symm
      _ = root.componentsBehind q := RelativePath.componentsBehind_resolve h'
  · intro root r
    exact r.fromRoot_resolve root
  · intro s w v v' skips fs e hwalk hlater hnext
    obtain ⟨hrelative, hfile, hfind⟩ := found_of_next hwalk skips hlater hnext
    exact ⟨RelativePath.componentsBehind_resolve hrelative, hfile, hfind⟩

/-- The root is spelled in another way than the source. -/
def respelledSettings : Settings :=
  { Settings.forRoot (.ofString "/pkg//.") with source := .ofString "/pkg" }

def respelledEntry : Entry :=
  ⟨.ofString "/pkg/a.txt", plainRelative, 1⟩

theorem packed_path_is_found_path_respelled :
    ∃ w v', Walk.ofSettings respelledSettings = .ok w ∧
      w.next danglingTree = some (.ok respelledEntry, v') ∧
      respelledEntry.relative.resolve respelledSettings.root = .ofString "/pkg//./a.txt" ∧
      (Path.ofString "/pkg//./a.txt").components = (Path.ofString "/pkg/a.txt").components ∧
      ∀ (fs' : FileSystem) (follow : Bool), fs'.find (.ofString "/pkg//./a.txt") follow =
        fs'.find (.ofString "/pkg/a.txt") follow := by
  have hwalk : Walk.ofSettings respelledSettings =
      .ok ⟨⟨respelledSettings, plainExclusions, []⟩, true, []⟩ := by cbv
  obtain ⟨pending, hlisting⟩ : ∃ pending,
      Rules.listing ⟨respelledSettings, plainExclusions, []⟩ danglingTree
        respelledSettings.source = .ok ⟨.ofString "/pkg/a.txt", .file, false⟩ :: pending :=
    ⟨_, by cbv⟩
  have hbegin : Rules.begin ⟨respelledSettings, plainExclusions, []⟩ danglingTree =
      .directory respelledSettings.source := by cbv
  have hvisit : Rules.visit ⟨respelledSettings, plainExclusions, []⟩ danglingTree
      [respelledSettings.source] ⟨.ofString "/pkg/a.txt", .file, false⟩ =
        .item (.ok respelledEntry) := by
    have hkeeps : Rules.keeps ⟨respelledSettings, plainExclusions, []⟩
        (.ofString "/pkg/a.txt") = true := by cbv
    have hleaf : Rules.leaf ⟨respelledSettings, plainExclusions, []⟩ danglingTree
        ⟨.ofString "/pkg/a.txt", .file, false⟩ = .item (.ok respelledEntry) := by cbv
    simp [Rules.visit, Rules.look, hkeeps, hleaf]
  have hnext := next_of_first hbegin hlisting hvisit
  obtain ⟨-, -, -, hfound⟩ := packed_path_is_found_path
  obtain ⟨hcomponents, -, hfind⟩ :=
    hfound respelledSettings _ _ _ [] danglingTree respelledEntry hwalk .start hnext
  have hresolve : respelledEntry.relative.resolve respelledSettings.root =
      .ofString "/pkg//./a.txt" := by cbv
  rw [hresolve] at hcomponents hfind
  exact ⟨_, _, hwalk, hnext, hresolve, hcomponents, hfind (by decide)⟩

end Walk

end TreeArchive
