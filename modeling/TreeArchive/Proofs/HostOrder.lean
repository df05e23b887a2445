import TreeArchive.Proofs.Rerun
import TreeArchive.Proofs.WalkOrder

/-!
The order in which the host lists directories. A sorted walk does not depend on it, and neither does
a run that packs what the walk yields: the members of the archive stand in the order of the items.
A walk that is not sorted yields the same items in the host's order.
-/
namespace TreeArchive

open FileSystem

theorem Node.kind_eq_of_face {node node' : Node} (h : node'.face = node.face) :
    node'.kind = node.kind := by
  have houtline := congrArg Node.outline h
  rw [outline_face, outline_face] at houtline
  exact kind_eq_of_outline houtline

/-- Spots of one sketch are nodes of one outline at one location, or the same free name. -/
theorem Spot.cases_of_sketch {spot spot' : Spot} (h : spot'.sketch = spot.sketch) :
    (∃ place place', spot = .occupied place ∧ spot' = .occupied place' ∧
      place'.node.kind = place.node.kind) ∨
    ∃ directory name directory' name', spot = .vacant directory name ∧
      spot' = .vacant directory' name' ∧
      directory'.location ++ [name'] = directory.location ++ [name] := by
  cases spot with
  | occupied place =>
    cases spot' with
    | occupied place' =>
      have houtline := Option.some.inj (Prod.mk.inj h).2
      exact .inl ⟨place, place', rfl, rfl, Node.kind_eq_of_outline houtline⟩
    | vacant directory' name' => cases (Prod.mk.inj h).2
  | vacant directory name =>
    cases spot' with
    | occupied place' => cases (Prod.mk.inj h).2
    | vacant directory' name' =>
      exact .inr ⟨directory, name, directory', name', rfl, rfl, (Prod.mk.inj h).1⟩

namespace FileSystem

variable {fs fs' g g' : FileSystem} {l : Location} {p : Path}

/-- Two results that fail in the same way, or lead to spots of the same sketch. -/
theorem cases_of_map_sketch {found found' : Except IoError Spot}
    (h : found'.map Spot.sketch = found.map Spot.sketch) :
    (∃ e, found = .error e ∧ found' = .error e) ∨
    ∃ spot spot', found = .ok spot ∧ found' = .ok spot' ∧ spot'.sketch = spot.sketch := by
  cases found with
  | error e =>
    cases found' with
    | error e' =>
      cases h
      exact .inl ⟨e, rfl, rfl⟩
    | ok spot' => cases h
  | ok spot =>
    cases found' with
    | error e' => cases h
    | ok spot' => exact .inr ⟨spot, spot', rfl, rfl, Except.ok.inj h⟩

/-- Changes at one location, where no directory stands before or behind them, leave alike what was
alike, if what stands there then looks alike. -/
theorem Alike.changed (h : fs.Alike fs') (hsame : fs.SameElsewhere g l)
    (hsame' : fs'.SameElsewhere g' l)
    (hkind : ∀ node, fs.get? l = some node → node.kind ≠ .directory)
    (hkindG : ∀ node, g.get? l = some node → node.kind ≠ .directory)
    (hface : (g'.get? l).map Node.face = (g.get? l).map Node.face) : g.Alike g' := by
  -- nodes of one face are of one kind, so there is no directory on the other side either
  have hother {a b : FileSystem} (hface : (b.get? l).map Node.face = (a.get? l).map Node.face)
      (hkind : ∀ node, a.get? l = some node → node.kind ≠ .directory) :
      ∀ node, b.get? l = some node → node.kind ≠ .directory := by
    intro node hnode
    rw [hnode] at hface
    obtain ⟨node', hnode', hfaces⟩ := Option.map_eq_some_iff.1 hface.symm
    rw [← Node.kind_eq_of_face hfaces]
    exact hkind node' hnode'
  refine ⟨hsame'.workingDirectory.trans (h.workingDirectory.trans hsame.workingDirectory.symm), ?_⟩
  intro other
  by_cases hl : other = l
  · rw [hl, hface]
  · have hshell := congrArg (Option.map Node.face) (hsame.shell_of_ne hkind hkindG hl)
    have hshell' := congrArg (Option.map Node.face)
      (hsame'.shell_of_ne (hother (h.face l) hkind) (hother hface hkindG) hl)
    simp only [Option.map_map, Function.comp_def, Node.face_shell] at hshell hshell'
    calc
      (g'.get? other).map Node.face = (fs'.get? other).map Node.face := hshell'
      _ = (fs.get? other).map Node.face := h.face other
      _ = (g.get? other).map Node.face := hshell.symm

theorem Alike.erase {node : Node} (h : fs.Alike fs') (hl : l ≠ []) (hnode : fs.get? l = some node)
    (hkind : node.kind ≠ .directory) : (fs.erase l).Alike (fs'.erase l) := by
  have hgone (fs : FileSystem) : (fs.erase l).get? l = none := get?_erase hl fs
  apply h.changed (sameElsewhere_erase fs l) (sameElsewhere_erase fs' l)
  · intro found hfound
    rw [hnode] at hfound
    cases hfound
    exact hkind
  · simp [hgone]
  · rw [hgone, hgone]

theorem Alike.isDirectory_eq (h : fs.Alike fs') (l : Location) :
    fs'.isDirectory l = fs.isDirectory l := by
  have hkind := congrArg (Option.map Node.kind) (h.sameOutline.outline l)
  simp only [Option.map_map, Function.comp_def, Node.kind_outline] at hkind
  have hany (fs : FileSystem) :
      fs.isDirectory l = ((fs.get? l).map Node.kind).any (· == .directory) := by
    rw [isDirectory, Option.any_map]
  rw [hany, hany]
  exact congrArg _ hkind

theorem Alike.isNone_eq (h : fs.Alike fs') (l : Location) :
    (fs'.get? l).isNone = (fs.get? l).isNone := by
  have hface := congrArg Option.isNone (h.face l)
  rwa [Option.isNone_map, Option.isNone_map] at hface

/-- A file can be added in both file systems or in neither. -/
theorem Alike.addFile_cases (h : fs.Alike fs') (l : Location) (mode : Nat) (content : Content) :
    (∃ e, fs.addFile l mode content = .error e ∧ fs'.addFile l mode content = .error e) ∨
    ∃ g g', fs.addFile l mode content = .ok g ∧ fs'.addFile l mode content = .ok g' ∧
      g.Alike g' := by
  have hfree (node node' : Node) (hentries : node'.entries = node.entries) :
      (fs'.insert? l node').isSome = (fs.insert? l node).isSome := by
    have hsome (fs : FileSystem) (node : Node) : (fs.insert? l node).isSome =
        decide (l ≠ [] ∧ l.all isLegalName = true ∧ node.entries.isEmpty = true ∧
          (fs.get? l).isNone = true ∧ fs.isDirectory l.dropLast = true) := by
      unfold insert?
      split
      · rename_i hfree
        exact (decide_eq_true hfree).symm
      · rename_i hfree
        exact (decide_eq_false hfree).symm
    rw [hsome, hsome, hentries, h.isNone_eq, h.isDirectory_eq]
  have hsome := hfree (.file ⟨fs.nextId, mode, content, none⟩)
    (.file ⟨fs'.nextId, mode, content, none⟩) rfl
  unfold addFile
  cases hinsert : fs.insert? l (.file ⟨fs.nextId, mode, content, none⟩) with
  | none =>
    rw [hinsert, Option.isSome_none, Option.isSome_eq_false_iff, Option.isNone_iff_eq_none] at hsome
    exact .inl ⟨_, rfl, by rw [hsome]⟩
  | some g =>
    rw [hinsert, Option.isSome_some] at hsome
    obtain ⟨g', hinsert'⟩ := Option.isSome_iff_exists.1 hsome
    refine .inr ⟨_, _, rfl, by rw [hinsert'], ?_⟩
    obtain ⟨-, hnone, hnew⟩ := insert?_eq_some hinsert
    obtain ⟨-, -, hnew'⟩ := insert?_eq_some hinsert'
    have halike : g.Alike g' := by
      apply h.changed (sameElsewhere_insert? hinsert) (sameElsewhere_insert? hinsert')
      · simp [hnone]
      · simp [hnew, Node.kind]
      · rw [hnew, hnew']
        rfl
    -- what is left is the count of identities, which no look-up reads
    exact ⟨halike.workingDirectory, halike.face⟩

/-- A new file is created in both file systems or in neither. -/
theorem Alike.createNew_cases (h : fs.Alike fs') (p : Path) :
    (∃ e, fs.createNew p = .error e ∧ fs'.createNew p = .error e) ∨
    ∃ g handle g' handle', fs.createNew p = .ok (g, handle) ∧
      fs'.createNew p = .ok (g', handle') ∧ handle'.location = handle.location ∧ g.Alike g' := by
  unfold createNew
  by_cases hasks : asksDirectory p = true
  · -- such a path names no file, and the error says what is at the last directory's place
    left
    rw [if_pos hasks, if_pos hasks]
    cases checkPath p with
    | error e => exact ⟨e, rfl, rfl⟩
    | ok u =>
      simp only [bind, Except.bind]
      rcases cases_of_map_sketch (h.sameOutline.resolve p p.steps.dropLast.dropLast true) with
        ⟨e, hfound, hfound'⟩ | ⟨spot, spot', hfound, hfound', hsketch⟩
      · rw [hfound, hfound']
        exact ⟨e, rfl, rfl⟩
      · rw [hfound, hfound']
        rcases Spot.cases_of_sketch hsketch with ⟨⟨node, trail⟩, ⟨node', trail'⟩, rfl, rfl, hkind⟩ |
          ⟨directory, name, directory', name', rfl, rfl, -⟩
        · cases node <;> cases node' <;> first | exact ⟨_, rfl, rfl⟩ | cases hkind
        · exact ⟨_, rfl, rfl⟩
  · rw [if_neg hasks, if_neg hasks]
    rcases cases_of_map_sketch (h.sameOutline.locate p false) with
      ⟨e, hfound, hfound'⟩ | ⟨spot, spot', hfound, hfound', hsketch⟩
    · rw [hfound, hfound']
      exact .inl ⟨e, rfl, rfl⟩
    · rw [hfound, hfound']
      rcases Spot.cases_of_sketch hsketch with ⟨place, place', rfl, rfl, -⟩ |
        ⟨directory, name, directory', name', rfl, rfl, hl⟩
      · exact .inl ⟨_, rfl, rfl⟩
      · simp only [bind, Except.bind, hl]
        rcases h.addFile_cases (directory.location ++ [name]) 0o644 .empty with
          ⟨e, hadd, hadd'⟩ | ⟨g, g', hadd, hadd', halike⟩
        · rw [hadd, hadd']
          exact .inl ⟨e, rfl, rfl⟩
        · rw [hadd, hadd']
          exact .inr ⟨g, _, g', _, rfl, rfl, rfl, halike⟩

end FileSystem

namespace Pack

variable {s : Settings} {fs fs' : FileSystem} {w : Walk}

theorem validate_of_alike (h : fs.Alike fs') (s : Settings) : s.validate fs' = s.validate fs := by
  have hsource : s.checkSource fs' = s.checkSource fs := by
    unfold Settings.checkSource
    rcases h.find_cases s.source true with ⟨e, hfind, hfind'⟩ | ⟨l, node, node', hfind, hfind', hface⟩
    · rw [hfind, hfind']
    · have hkind := Node.kind_eq_of_face hface
      rw [hfind, hfind']
      cases node <;> cases node' <;> first | rfl | cases hkind
  have houtput : s.outputIsDirectory fs' = s.outputIsDirectory fs := by
    unfold Settings.outputIsDirectory
    rcases h.find_cases s.output true with ⟨e, hfind, hfind'⟩ | ⟨l, node, node', hfind, hfind', hface⟩
    · rw [hfind, hfind']
    · have hkind := Node.kind_eq_of_face hface
      rw [hfind, hfind']
      cases node <;> cases node' <;> first | rfl | cases hkind
  simp only [Settings.validate, hsource, houtput]

/-- The output's place is cleared in both file systems or in neither. -/
theorem resetOutput_of_alike (h : fs.Alike fs') (output : Path) :
    (∃ f, resetOutput fs output = .error f ∧ resetOutput fs' output = .error f) ∨
    ∃ g replaced g', resetOutput fs output = .ok (g, replaced) ∧
      resetOutput fs' output = .ok (g', replaced) ∧ g.Alike g' := by
  rcases h.find_cases output false with ⟨e, hfind, hfind'⟩ | ⟨l, node, node', hfind, hfind', hface⟩
  · unfold resetOutput
    rw [hfind, hfind']
    cases hmissing : e.isNotFound with
    | true => exact .inr ⟨fs, false, fs', by simp [hmissing], by simp [hmissing], h⟩
    | false => exact .inl ⟨.removeOutput output e, by simp [hmissing], by simp [hmissing]⟩
  · have hkind := Node.kind_eq_of_face hface
    by_cases hdir : node.kind = .directory
    · obtain ⟨mode, nodes, rfl⟩ := Node.exists_of_kind_directory hdir
      obtain ⟨mode', nodes', rfl⟩ := Node.exists_of_kind_directory (hkind.trans hdir)
      exact .inl ⟨.outputIsDirectory output, by rw [resetOutput, hfind],
        by rw [resetOutput, hfind']⟩
    · have hget := get?_of_find hfind
      have hl : l ≠ [] := by
        rintro rfl
        cases hget
        exact hdir fs.rooted
      exact .inr ⟨_, true, _, resetOutput_of_find hfind hdir,
        resetOutput_of_find hfind' (by rwa [hkind]), h.erase hl hget hdir⟩

theorem createOutput_of_alike (h : fs.Alike fs') (output : Path) :
    (∃ f, createOutput fs output = .error f ∧ createOutput fs' output = .error f) ∨
    ∃ g handle g' handle', createOutput fs output = .ok (g, handle) ∧
      createOutput fs' output = .ok (g', handle') ∧ handle'.location = handle.location ∧
      g.Alike g' := by
  unfold createOutput
  rcases h.createNew_cases output with
    ⟨e, hcreate, hcreate'⟩ | ⟨g, handle, g', handle', hcreate, hcreate', hl, halike⟩
  · rw [hcreate, hcreate']
    cases hexists : e.isAlreadyExists with
    | true => exact .inl ⟨.outputExists output, by simp [hexists], by simp [hexists]⟩
    | false => exact .inl ⟨.createOutput output e, by simp [hexists], by simp [hexists]⟩
  · rw [hcreate, hcreate']
    exact .inr ⟨g, handle, g', handle', rfl, rfl, hl, halike⟩

/-- Entries are counted, and nothing else of the report changes. -/
theorem replacedExisting_of_addAll {σ : Type} {source : Source σ} {limit : Nat} {state : σ}
    {run : Run} {report report' : Report}
    (h : (addAll s source limit state run report).2.2 = .ok report') :
    report'.replacedExisting = report.replacedExisting := by
  fun_induction addAll s source limit state run report with
  | case1 =>
    cases h
    rfl
  | case2 =>
    cases h
    rfl
  | case3 => cases h
  | case4 => cases h
  | case5 limit state run report fs entry state' hpull added events read hresult run' more result
      hrest ih =>
    rw [hrest] at ih
    exact ih h

/-- Runs with the same events and the same result, which leave file systems that are alike. -/
structure SamePacked (packed packed' : Packed) : Prop where
  events : packed'.events = packed.events
  result : packed'.result = packed.result
  alike : packed.fs.Alike packed'.fs

/-- From alike file systems two sorted runs do the same. -/
theorem packFrom_of_alike (h : fs.Alike fs') (hsorted : w.rules.settings.sorted = true)
    (hw : w.BelowSource) (s : Settings) (output : Path) :
    SamePacked (packFrom s output walking w fs) (packFrom s output walking w fs') := by
  rcases resetOutput_of_alike h output with
    ⟨f, hreset, hreset'⟩ | ⟨fs₀, replaced, fs₀', hreset, hreset', halike₀⟩
  · simp only [packFrom, hreset, hreset']
    exact ⟨rfl, rfl, h⟩
  rcases createOutput_of_alike halike₀ output with
    ⟨f, hcreate, hcreate'⟩ | ⟨fs₁, handle, fs₁', handle', hcreate, hcreate', hl, halike₁⟩
  · simp only [packFrom, hreset, hreset', hcreate, hcreate']
    exact ⟨rfl, rfl, halike₀⟩
  -- both runs have the output open now, and go through the same entries
  have habreast : Abreast ⟨fs₁, handle, .ofLevel s.level⟩ ⟨fs₁', handle', .ofLevel s.level⟩ :=
    ⟨halike₁, rfl, hl, holds_createNew (createNew_of_createOutput hcreate),
      holds_createNew (createNew_of_createOutput hcreate')⟩
  have hitems : w.items fs₁' = w.items fs₁ :=
    Walk.items_of_outline halike₁.sameOutline hsorted (sameSizes_of_alike halike₁ _) hw
  have hlimit := Nat.lt_succ_of_le (Walk.length_items_le fs₁ w)
  have hlimit' := Nat.lt_succ_of_le (Walk.length_items_le fs₁' w)
  rw [hitems] at hlimit'
  have hall : Abreast (packedRun s output walking w fs₁ handle replaced).1
        (packedRun s output walking w fs₁' handle' replaced).1 ∧
      (packedRun s output walking w fs₁' handle' replaced).2.1 =
        (packedRun s output walking w fs₁ handle replaced).2.1 ∧
      (packedRun s output walking w fs₁' handle' replaced).2.2 =
        (packedRun s output walking w fs₁ handle replaced).2.2.map (reportAs replaced) :=
    habreast.addAll replaced hsorted hw hlimit hlimit'
  obtain ⟨hends, hevents, hresult⟩ := hall
  have hresult : (packedRun s output walking w fs₁' handle' replaced).2.2 =
      (packedRun s output walking w fs₁ handle replaced).2.2 := by
    rw [hresult]
    cases hreport : (packedRun s output walking w fs₁ handle replaced).2.2 with
    | error f => rfl
    | ok report =>
      obtain rfl : report.replacedExisting = replaced := replacedExisting_of_addAll hreport
      rfl
  refine ⟨?_, ?_, ?_⟩
  · rw [events_of_created s walking w hreset hcreate, events_of_created s walking w hreset' hcreate',
      hevents, hresult]
  · rw [result_of_created s walking w hreset hcreate, result_of_created s walking w hreset' hcreate',
      hresult, hends.writer]
  · rw [(packFrom_created s walking w hreset hcreate).1,
      (packFrom_created s walking w hreset' hcreate').1, close, close, hends.writer]
    exact hends.alike.store hends.holds hends.holds' hends.location _ _

/-- A sorted run does not depend on the order in which the host lists directories. -/
theorem packTree_of_alike (h : fs.Alike fs') (hsorted : s.sorted = true) :
    SamePacked (packTree s fs) (packTree s fs') := by
  unfold packTree
  rw [validate_of_alike h]
  cases s.validate fs with
  | error f => exact ⟨rfl, rfl, h⟩
  | ok u =>
    cases hwalk : Walk.ofSettings s with
    | error f => exact ⟨rfl, rfl, h⟩
    | ok w =>
      obtain ⟨x, -, rfl⟩ := Walk.ofSettings_eq_ok.1 hwalk
      exact packFrom_of_alike h hsorted (Walk.belowSource_of_fresh _) s s.output

end Pack

namespace Rules

variable {r : Rules} {fs : FileSystem} {paths : List Path} {v : Visit}

/-- The same rules, with directories taken in the order in which the host lists them. -/
def unsorted (r : Rules) : Rules :=
  { r with settings := { r.settings with sorted := false } }

theorem perm_listing (r : Rules) (fs : FileSystem) (p : Path) :
    (r.unsorted.listing fs p).Perm (r.listing fs p) := by
  unfold listing
  cases fs.list p with
  | error e => exact .refl _
  | ok entries =>
    apply List.Perm.map
    cases hsorted : r.settings.sorted with
    | false => exact .refl _
    | true => exact (List.mergeSort_perm entries nameLe).symm

/-- Below a node the same items come, whatever the order of the directories there. -/
theorem perm_traverse (r : Rules) (fs : FileSystem) (paths : List Path) (v : Visit) :
    (r.unsorted.traverse fs paths v).Perm (r.traverse fs paths v) := by
  -- on the room that is left in the path, as the traversal goes
  induction hroom : v.path.room using Nat.strongRecOn generalizing paths v with
  | ind room ih =>
    subst hroom
    have hvisit : r.unsorted.visit fs paths v = r.visit fs paths v := rfl
    rw [traverse_eq, traverse_eq, hvisit]
    cases hnode : r.visit fs paths v with
    | item i => exact .refl _
    | nothing => exact .refl _
    | directory p =>
      obtain rfl := eq_of_visit hnode
      refine (List.Perm.flatMap_right _ (perm_listing r fs v.path)).trans ?_
      apply List.Perm.flatMap_left
      intro item hitem
      cases item with
      | error e => exact .refl _
      | ok child => exact ih _ (room_lt_of_mem_listing hitem) _ child rfl

theorem perm_results (r : Rules) (fs : FileSystem) (paths : List Path) (o : Outcome) :
    (r.unsorted.results fs paths o).Perm (r.results fs paths o) := by
  cases o with
  | item i => exact .refl _
  | nothing => exact .refl _
  | directory p =>
    refine (List.Perm.flatMap_right _ (perm_listing r fs p)).trans ?_
    apply List.Perm.flatMap_left
    intro item hitem
    cases item with
    | error e => exact .refl _
    | ok child => exact perm_traverse r fs _ child

end Rules

namespace Walk

/-- The items of a sorted walk come in the order of the names below its source. They come in the
same order however the host lists directories, and a run packs them alike; a walk that is not sorted
yields the same items in some order. -/
theorem sorted_order_is_reproducible {s : Settings} {w : Walk} (hsorted : s.sorted = true)
    (hwalk : Walk.ofSettings s = .ok w) (skips : List Path) (fs : FileSystem) :
    let walk := skips.foldl skip w
    (walk.located fs).map Prod.snd = walk.items fs ∧
      (∀ x ∈ walk.located fs, Rules.Concerns s.root x.1 x.2) ∧
      ((walk.located fs).map Prod.fst).Pairwise s.source.Precedes ∧
      (∀ fs', fs.Alike fs' → walk.items fs' = walk.items fs ∧
        Pack.SamePacked (Pack.packTree s fs) (Pack.packTree s fs')) ∧
      ∃ w', Walk.ofSettings { s with sorted := false } = .ok w' ∧ ∀ fs', fs.Alike fs' →
        ((skips.foldl skip w').items fs').Perm (walk.items fs) := by
  obtain ⟨x, hx, rfl⟩ := ofSettings_eq_ok.1 hwalk
  have hskipped (s : Settings) : skips.foldl skip ⟨⟨s, x, []⟩, true, []⟩ =
      ⟨⟨s, x, skips.map Path.normalize⟩, true, []⟩ := foldl_skip skips _
  simp only [hskipped]
  have hitems {fs' : FileSystem} (halike : fs.Alike fs') :
      items fs' ⟨⟨s, x, skips.map Path.normalize⟩, true, []⟩ =
        items fs ⟨⟨s, x, skips.map Path.normalize⟩, true, []⟩ :=
    items_of_outline halike.sameOutline hsorted (sameSizes_of_alike halike _)
      (belowSource_of_fresh _)
  refine ⟨map_snd_located fs _, ?_, ?_, ?_, _, ofSettings_eq_ok.2 ⟨x, hx, rfl⟩, ?_⟩
  · exact (settled_of_fresh fs _).located
  · have hfresh := sorted_of_fresh ⟨s, x, skips.map Path.normalize⟩
    obtain ⟨found, hfound, -⟩ := hfresh.located hsorted fs
    exact hfound.precedes
  · intro fs' halike
    exact ⟨hitems halike, Pack.packTree_of_alike halike hsorted⟩
  · intro fs' halike
    rw [hskipped, ← hitems halike, items_of_fresh, items_of_fresh]
    exact Rules.perm_results ⟨s, x, skips.map Path.normalize⟩ fs' [] _

/-- A directory with a file and a directory whose names begin alike; the host lists the file
first. -/
def mixedTree : FileSystem :=
  .ofEntries 2
    [(.ofString "pkg", .directory 0o755
      [(.ofString "a.txt", .ofBytes 0 [0x61]),
        (.ofString "a", .directory 0o755 [(.ofString "x", .ofBytes 1 [0x78])])])]
    (by cbv)

/-- The same, listed the other way round. -/
def relistedTree : FileSystem :=
  .ofEntries 2
    [(.ofString "pkg", .directory 0o755
      [(.ofString "a", .directory 0o755 [(.ofString "x", .ofBytes 1 [0x78])]),
        (.ofString "a.txt", .ofBytes 0 [0x61])])]
    (by cbv)

theorem alike_relistedTree : mixedTree.Alike relistedTree where
  workingDirectory := rfl
  face := by
    have hlookup (name : Name) (file directory : Node) :
        [(Name.ofString "a", directory), (Name.ofString "a.txt", file)].lookup name =
          [(Name.ofString "a.txt", file), (Name.ofString "a", directory)].lookup name := by
      have hne : (Name.ofString "a" == Name.ofString "a.txt") = false := by decide
      simp only [List.lookup_cons, List.lookup_nil]
      by_cases hname : name = .ofString "a"
      · simp only [hname, hne, beq_self_eq_true]
      · simp only [beq_false_of_ne hname]
    intro l
    rcases l with _ | ⟨top, rest⟩
    · rfl
    · simp only [get?, mixedTree, relistedTree, ofEntries, Node.get?, Node.child?, Node.entries,
        List.lookup_cons, List.lookup_nil]
      cases top == .ofString "pkg" with
      | false => rfl
      | true =>
        -- below the one directory every name leads to the same node in both
        cases rest with
        | nil => rfl
        | cons name rest =>
          simp only [Option.bind_some, Node.get?, Node.child?, Node.entries, hlookup]

def mixedSettings : Settings :=
  Settings.forRoot (.ofString "/pkg")

def innerEntry : Entry :=
  ⟨.ofString "/pkg/a/x", ⟨["a".toList, "x".toList], by simp, by decide⟩, 1⟩

def outerEntry : Entry :=
  ⟨.ofString "/pkg/a.txt", plainRelative, 1⟩

def mixedRules : Rules :=
  ⟨mixedSettings, plainExclusions, []⟩

/-- By its text the second path would come first. -/
theorem items_mixedTree : items mixedTree ⟨mixedRules, true, []⟩ =
    [.ok innerEntry, .ok outerEntry] := by
  have hbegin : mixedRules.begin mixedTree = .directory (.ofString "/pkg") := by cbv
  have hlisting : mixedRules.listing mixedTree (.ofString "/pkg") =
      [.ok ⟨.ofString "/pkg/a", .directory, false⟩, .ok ⟨.ofString "/pkg/a.txt", .file, false⟩] := by
    cbv
  have hinside : mixedRules.listing mixedTree (.ofString "/pkg/a") =
      [.ok ⟨.ofString "/pkg/a/x", .file, false⟩] := by cbv
  have hdirectory (paths : List Path) :
      mixedRules.visit mixedTree paths ⟨.ofString "/pkg/a", .directory, false⟩ =
        .directory (.ofString "/pkg/a") := by
    have hkeeps : mixedRules.keeps (.ofString "/pkg/a") = true := by cbv
    simp [Rules.visit, Rules.look, hkeeps]
  have hinner (paths : List Path) :
      mixedRules.visit mixedTree paths ⟨.ofString "/pkg/a/x", .file, false⟩ =
        .item (.ok innerEntry) := by
    have hkeeps : mixedRules.keeps (.ofString "/pkg/a/x") = true := by cbv
    have hleaf : mixedRules.leaf mixedTree ⟨.ofString "/pkg/a/x", .file, false⟩ =
        .item (.ok innerEntry) := by cbv
    simp [Rules.visit, Rules.look, hkeeps, hleaf]
  have houter (paths : List Path) :
      mixedRules.visit mixedTree paths ⟨.ofString "/pkg/a.txt", .file, false⟩ =
        .item (.ok outerEntry) := by
    have hkeeps : mixedRules.keeps (.ofString "/pkg/a.txt") = true := by cbv
    have hleaf : mixedRules.leaf mixedTree ⟨.ofString "/pkg/a.txt", .file, false⟩ =
        .item (.ok outerEntry) := by cbv
    simp [Rules.visit, Rules.look, hkeeps, hleaf]
  rw [items_of_fresh, hbegin, Rules.results, hlisting]
  simp [Rules.traverseItem, Rules.traverse_eq, hdirectory, hinner, houter, Rules.results, hinside]

/-- The host lists the trees in different orders, and they are walked and packed alike. -/
theorem sorted_order_is_reproducible_relisted :
    mixedTree.list mixedSettings.source ≠ relistedTree.list mixedSettings.source ∧
      ∃ w, Walk.ofSettings mixedSettings = .ok w ∧
        w.items relistedTree = [.ok innerEntry, .ok outerEntry] ∧
        (w.located mixedTree).map Prod.snd = [.ok innerEntry, .ok outerEntry] ∧
        ((w.located mixedTree).map Prod.fst).Pairwise mixedSettings.source.Precedes ∧
        Pack.SamePacked (Pack.packTree mixedSettings mixedTree)
          (Pack.packTree mixedSettings relistedTree) := by
  have hwalk : Walk.ofSettings mixedSettings = .ok ⟨mixedRules, true, []⟩ := by cbv
  have hlist : mixedTree.list mixedSettings.source ≠ relistedTree.list mixedSettings.source := by
    have hfirst : mixedTree.list mixedSettings.source =
        .ok [(.ofString "a.txt", .file), (.ofString "a", .directory)] := by cbv
    have hsecond : relistedTree.list mixedSettings.source =
        .ok [(.ofString "a", .directory), (.ofString "a.txt", .file)] := by cbv
    rw [hfirst, hsecond]
    simp
  obtain ⟨hitems, -, hprecedes, hsame, -⟩ := sorted_order_is_reproducible rfl hwalk [] mixedTree
  obtain ⟨hrelisted, hpacked⟩ := hsame relistedTree alike_relistedTree
  exact ⟨hlist, _, hwalk, hrelisted.trans items_mixedTree, hitems.trans items_mixedTree, hprecedes,
    hpacked⟩

end Walk

end TreeArchive
