import TreeArchive.Proofs.SourceBelowRoot
import TreeArchive.Proofs.Taken

/-!
The archive as an entry of its own. A walk leaves out the path of the output, which it compares by
its names alone; it does not leave out another path that leads to the same file.
-/
namespace TreeArchive

open FileSystem

namespace FileSystem

/-- A path leads to a location, past all links. -/
def LeadsTo (fs : FileSystem) (p : Path) (l : Location) : Prop :=
  ∃ node, fs.find p true = .ok (l, node)

theorem LeadsTo.of_bare_eq {fs fs' : FileSystem} {p : Path} {l : Location}
    (h : fs.LeadsTo p l) (hbare : fs.bare = fs'.bare) : fs'.LeadsTo p l := by
  obtain ⟨node, hfind⟩ := h
  obtain ⟨node', hfind', -⟩ := find_of_bare_eq hbare hfind
  exact ⟨node', hfind'⟩

end FileSystem

/-- Names below the source through which a walk comes to a location, although nothing at the path of
the output is visited. -/
structure Settings.OtherName (s : Settings) (x : Exclusions) (fs : FileSystem) (l : Location)
    (names : List Name) : Prop where
  listed : s.Listed fs names
  unskipped : ∀ front, front ≠ [] → front <+: names →
    (s.source.below front).normalize ≠ s.output.normalize
  unmatched : ∀ front, front ≠ [] → front <+: names → ∀ relative,
    RelativePath.fromRoot (s.source.below front) s.root = .ok relative → x.excludes relative = false
  relative : ∃ relative, RelativePath.fromRoot (s.source.below names) s.root = .ok relative
  leads : fs.LeadsTo (s.source.below names) l

namespace Walk

variable {s : Settings} {w : Walk} {fs : FileSystem} {l : Location} {data : FileData}

/-- What is found past the output, in terms of paths. -/
theorem found_past_output {x : Exclusions} {names : List Name} {data : FileData} :
    Rules.Found ⟨s, x, [s.output.normalize]⟩ fs names data ↔ s.Listed fs names ∧
      (∀ front, front ≠ [] → front <+: names →
        (s.source.below front).normalize ≠ s.output.normalize) ∧
      (∀ front, front ≠ [] → front <+: names → ∀ relative,
        RelativePath.fromRoot (s.source.below front) s.root = .ok relative →
          x.excludes relative = false) ∧
      ∃ l, fs.find (s.source.below names) true = .ok (l, .file data) := by
  constructor
  · intro h
    obtain ⟨hlisted, hvisible, hfile⟩ := h
    refine ⟨hlisted, ?_, ?_, hfile⟩
    · intro front hne hinit
      exact List.forall_mem_singleton.1 (Rules.keeps_eq_true.1 (hvisible front hne hinit)).1
    · intro front hne hinit
      exact (Rules.keeps_eq_true.1 (hvisible front hne hinit)).2
  · intro h
    obtain ⟨hlisted, hunskipped, hunmatched, hfile⟩ := h
    refine ⟨hlisted, ?_, hfile⟩
    intro front hne hinit
    rw [Rules.keeps_eq_true]
    constructor
    · exact List.forall_mem_singleton.2 (hunskipped front hne hinit)
    · exact hunmatched front hne hinit

theorem skip_eq (hwalk : Walk.ofSettings s = .ok w) :
    w.skip s.output = ⟨⟨s, w.rules.exclusions, [s.output.normalize]⟩, true, []⟩ := by
  obtain ⟨x, -, rfl⟩ := ofSettings_eq_ok.1 hwalk
  rfl

theorem mem_items_past_output (hwalk : Walk.ofSettings s = .ok w) {e : Entry} :
    .ok e ∈ (w.skip s.output).items fs ↔ ∃ names data,
      Rules.Found ⟨s, w.rules.exclusions, [s.output.normalize]⟩ fs names data ∧
        RelativePath.fromRoot (s.source.below names) s.root = .ok e.relative ∧
        e.path = s.source.below names ∧ e.size = data.content.size := by
  obtain ⟨x, -, rfl⟩ := ofSettings_eq_ok.1 hwalk
  apply (mem_items_of_fresh (r := ⟨s, x, [s.output.normalize]⟩) (Rules.not_isFault_ok e)).trans
  apply exists_congr
  intro names
  apply exists_congr
  intro data
  exact and_congr_right fun _ => Rules.ok_eq_itemOf

/-- A walk past the output comes to a file exactly if it comes to it under another name. -/
theorem yields_iff_otherName (hwalk : Walk.ofSettings s = .ok w)
    (hfile : fs.get? l = some (.file data)) :
    (∃ e, .ok e ∈ (w.skip s.output).items fs ∧ fs.LeadsTo e.path l) ↔
      ∃ names, s.OtherName w.rules.exclusions fs l names := by
  simp only [mem_items_past_output hwalk, found_past_output]
  constructor
  · intro h
    obtain ⟨e, ⟨names, _, ⟨hlisted, hunskipped, hunmatched, -⟩, hrelative, hpath, -⟩, hleads⟩ := h
    rw [hpath] at hleads
    exact ⟨names, hlisted, hunskipped, hunmatched, ⟨_, hrelative⟩, hleads⟩
  · intro h
    obtain ⟨names, hlisted, hunskipped, hunmatched, ⟨relative, hrelative⟩, node, hfind⟩ := h
    -- the path leads to a file, since what stands at the location is one
    obtain rfl : .file data = node := Option.some.inj (hfile.symm.trans (get?_of_find hfind))
    exact ⟨⟨s.source.below names, relative, data.content.size⟩,
      ⟨names, data, ⟨hlisted, hunskipped, hunmatched, l, hfind⟩, hrelative, rfl, rfl⟩, _, hfind⟩

end Walk

theorem eq_of_unsized_eq {i : Except Failure Entry} {e : Entry}
    (h : unsized i = unsized (.ok e)) :
    ∃ e', i = .ok e' ∧ e'.path = e.path ∧ e'.relative = e.relative := by
  cases i with
  | error f => cases h
  | ok e' =>
    simp only [unsized, Except.ok.injEq, Entry.mk.injEq] at h
    exact ⟨e', rfl, h.1, h.2.1⟩

namespace Pack

variable {s : Settings} {w : Walk} {fs fs₀ fs₁ : FileSystem} {replaced : Bool} {handle : Handle}

/-- The entries that a run takes from its walk, each with the file system at that moment. -/
def takenFromTree (s : Settings) (w : Walk) (fs₁ : FileSystem) (handle : Handle) :
    List (FileSystem × Entry) :=
  taken s walking ((w.skip s.output).weight fs₁ + 1) (w.skip s.output)
    ⟨fs₁, handle, .ofLevel s.level⟩

/-- What a run takes leads where it led when the output was created. -/
theorem yields_of_mem_takenFromTree {t : FileSystem × Entry} {l : Location}
    (h : t ∈ takenFromTree s w fs₁ handle) (hleads : t.1.LeadsTo t.2.path l) :
    ∃ e, .ok e ∈ (w.skip s.output).items fs₁ ∧ fs₁.LeadsTo e.path l := by
  obtain ⟨hbare, hmem⟩ := mem_items_of_mem_taken h
  obtain ⟨i, hi, hunsized⟩ := List.mem_map.1 hmem
  obtain ⟨e, rfl, hpath, -⟩ := eq_of_unsized_eq hunsized
  refine ⟨e, hi, ?_⟩
  rw [hpath]
  exact hleads.of_bare_eq hbare

/-- A run that succeeds takes all that its walk yields. -/
theorem exists_taken_of_success {l : Location} {report : Report}
    (hok : (addAll s walking ((w.skip s.output).weight fs₁ + 1) (w.skip s.output)
      ⟨fs₁, handle, .ofLevel s.level⟩ (Report.ofOutput s.output replaced)).2.2 = .ok report)
    {e : Entry} (he : .ok e ∈ (w.skip s.output).items fs₁) (hleads : fs₁.LeadsTo e.path l) :
    ∃ t ∈ takenFromTree s w fs₁ handle, t.1.LeadsTo t.2.path l := by
  -- a walk weighs more than the items that it yields, so the limit does not cut the run short
  have hlength := Nat.lt_succ_of_le (Walk.length_items_le fs₁ (w.skip s.output))
  have hall := taken_of_success hlength hok
  have hmem := List.mem_map_of_mem (f := unsized) he
  rw [← hall] at hmem
  obtain ⟨t, ht, hunsized⟩ := List.mem_map.1 hmem
  refine ⟨t, ht, ?_⟩
  obtain ⟨_, ⟨⟩, hpath, -⟩ := eq_of_unsized_eq hunsized
  rw [hpath]
  exact hleads.of_bare_eq (mem_items_of_mem_taken ht).1.symm

/-- A walk that leaves out its output never yields the output's own path. The archive is packed into
itself exactly if the walk comes to it under another name, and only a run that fails may stop
before. -/
theorem packs_output_iff_otherName (hvalid : s.validate fs = .ok ())
    (hwalk : Walk.ofSettings s = .ok w) (hreset : resetOutput fs s.output = .ok (fs₀, replaced))
    (hcreate : createOutput fs₀ s.output = .ok (fs₁, handle)) :
    let entries := takenFromTree s w fs₁ handle
    let packed := packTree s fs
    let otherwise := ∃ names, s.OtherName w.rules.exclusions fs₁ handle.location names
    fs₁.LeadsTo s.output handle.location ∧
    (∀ e, .ok e ∈ (w.skip s.output).items fs₁ → e.path.normalize ≠ s.output.normalize) ∧
    ((∃ e, .ok e ∈ (w.skip s.output).items fs₁ ∧ fs₁.LeadsTo e.path handle.location) ↔
      otherwise) ∧
    packed.events.filterMap Event.started? = entries.map (fun t => t.2.relative) ∧
    ((∃ t ∈ entries, t.1.LeadsTo t.2.path handle.location) → otherwise) ∧
    ∀ report, packed.result = .ok report → otherwise →
      ∃ t ∈ entries, t.1.LeadsTo t.2.path handle.location := by
  intro entries packed otherwise
  have hcreated := createNew_of_createOutput hcreate
  obtain ⟨_, _, -, -, -, -, -, hfile⟩ := createNew_eq_ok hcreated
  have hyields := Walk.yields_iff_otherName hwalk hfile
  obtain ⟨-, hevents, hfailed⟩ := packFrom_created s walking (w.skip s.output) hreset hcreate
  rw [← packTree_eq hvalid hwalk] at hevents hfailed
  refine ⟨⟨_, find_createNew hcreated true⟩, ?_, hyields, ?_, ?_, ?_⟩
  · intro e he
    obtain ⟨names, data, hfound, -, hpath, -⟩ := (Walk.mem_items_past_output hwalk).1 he
    rw [hpath]
    exact (Walk.found_past_output.1 hfound).2.1 names hfound.listed.ne_nil (List.prefix_refl names)
  · have hstarted :
        (packedRun s s.output walking (w.skip s.output) fs₁ handle replaced).2.1.filterMap
          Event.started? = entries.map fun t => t.2.relative := started_eq_taken s walking _ _ _ _
    -- closing the archive adds no event but the last, which starts no entry
    rw [← hstarted]
    rcases hevents with h | h <;> simp [packed, h, Event.started?]
  · rintro ⟨t, ht, hleads⟩
    exact hyields.1 (yields_of_mem_takenFromTree ht hleads)
  · intro report hreport hother
    obtain ⟨e, he, hleads⟩ := hyields.2 hother
    cases hrun : (packedRun s s.output walking (w.skip s.output) fs₁ handle replaced).2.2 with
    | error f =>
      exact absurd (((hfailed f).2 hrun).symm.trans hreport) (by simp)
    | ok r => exact exists_taken_of_success hrun he hleads

/-- A directory with a link in it to the archive that is made of it by default. -/
def ownTree : FileSystem :=
  .ofEntries 0
    [(.ofString "pkg", .directory 0o755 [(.ofString "latest.zip", .link (.ofString "pkg.zip"))])]
    (by cbv)

/-- The same with the archive, which is empty yet. -/
def ownTreeCreated : FileSystem :=
  .ofEntries 1
    [(.ofString "pkg", .directory 0o755
      [(.ofString "pkg.zip", .ofBytes 0 []),
        (.ofString "latest.zip", .link (.ofString "pkg.zip"))])]
    (by cbv)

def ownSettings : Settings :=
  Settings.forRoot (.ofString "/pkg")

def ownHandle : Handle :=
  ⟨[.ofString "pkg", .ofString "pkg.zip"], 0⟩

def ownRelative : RelativePath :=
  ⟨["latest.zip".toList], by simp, by decide⟩

theorem packs_output_iff_otherName_linked :
    ∃ w e, Walk.ofSettings ownSettings = .ok w ∧
      .ok e ∈ (w.skip ownSettings.output).items ownTreeCreated ∧
      ownTreeCreated.LeadsTo e.path ownHandle.location := by
  have hvalid : ownSettings.validate ownTree = .ok () := by cbv
  have hwalk : Walk.ofSettings ownSettings =
      .ok ⟨⟨ownSettings, Walk.plainExclusions, []⟩, true, []⟩ := by cbv
  have hreset : resetOutput ownTree ownSettings.output = .ok (ownTree, false) := by cbv
  have hcreate : createOutput ownTree ownSettings.output = .ok (ownTreeCreated, ownHandle) := by cbv
  obtain ⟨-, -, hyields, -⟩ := packs_output_iff_otherName hvalid hwalk hreset hcreate
  obtain ⟨mode, nodes, hsource⟩ : ∃ mode nodes, ownTreeCreated.find ownSettings.source true =
      .ok ([.ofString "pkg"], .directory mode nodes) := ⟨_, _, by cbv⟩
  have hrelative : RelativePath.fromRoot (ownSettings.source.below [.ofString "latest.zip"])
      ownSettings.root = .ok ownRelative := by cbv
  have hfront {front : List Name} (hne : front ≠ []) (hinit : front <+: [.ofString "latest.zip"]) :
      front = [.ofString "latest.zip"] := by
    obtain ⟨rest, rfl, hrest⟩ := (List.prefix_cons_iff.1 hinit).resolve_left hne
    rw [List.prefix_nil.1 hrest]
  have hother : ownSettings.OtherName Walk.plainExclusions ownTreeCreated ownHandle.location
      [.ofString "latest.zip"] := by
    refine ⟨⟨[], .ofString "latest.zip", _, rfl, by cbv, .source hsource⟩, ?_, ?_,
      ⟨_, hrelative⟩, _, by cbv⟩
    · intro front hne hinit
      rw [hfront hne hinit]
      decide
    · intro front hne hinit relative hfound
      rw [hfront hne hinit] at hfound
      obtain rfl : ownRelative = relative := Except.ok.inj (hrelative.symm.trans hfound)
      cbv
  obtain ⟨e, he, hleads⟩ := hyields.2 ⟨_, hother⟩
  exact ⟨_, e, hwalk, he, hleads⟩

/-- Settings pass every check, and the first entry of the walk is a link to the new archive. -/
theorem linked_output_is_yielded :
    ownSettings.validate ownTree = .ok () ∧
    resetOutput ownTree ownSettings.output = .ok (ownTree, false) ∧
    createOutput ownTree ownSettings.output = .ok (ownTreeCreated, ownHandle) ∧
    ∃ w e node, Walk.ofSettings ownSettings = .ok w ∧
      .ok e ∈ (w.skip ownSettings.output).items ownTreeCreated ∧
      ownTreeCreated.find e.path true = .ok (ownHandle.location, node) := by
  have hwalk : Walk.ofSettings ownSettings =
      .ok ⟨⟨ownSettings, Walk.plainExclusions, []⟩, true, []⟩ := by cbv
  have hbegin : (Rules.mk ownSettings Walk.plainExclusions [ownSettings.output.normalize]).begin
      ownTreeCreated = .directory ownSettings.source := by cbv
  have hlisting : (Rules.mk ownSettings Walk.plainExclusions [ownSettings.output.normalize]).listing
      ownTreeCreated ownSettings.source = [.ok ⟨.ofString "/pkg/latest.zip", .link, false⟩,
        .ok ⟨.ofString "/pkg/pkg.zip", .file, false⟩] := by cbv
  have hkeeps : (Rules.mk ownSettings Walk.plainExclusions [ownSettings.output.normalize]).keeps
      (.ofString "/pkg/latest.zip") = true := by cbv
  have hleaf : (Rules.mk ownSettings Walk.plainExclusions [ownSettings.output.normalize]).leaf
      ownTreeCreated ⟨.ofString "/pkg/latest.zip", .link, false⟩ =
        .item (.ok ⟨.ofString "/pkg/latest.zip", ownRelative, 0⟩) := by cbv
  have hnext := Walk.next_of_first hbegin hlisting (i := .ok ⟨.ofString "/pkg/latest.zip",
    ownRelative, 0⟩) (by
      have hfollow : ownSettings.followLinks = false := rfl
      simp [Rules.visit, Rules.look, hkeeps, hleaf, hfollow])
  exact ⟨by cbv, by cbv, by cbv, _, _, _, hwalk, Walk.mem_items_of_next hnext, by cbv⟩

end Pack

end TreeArchive
