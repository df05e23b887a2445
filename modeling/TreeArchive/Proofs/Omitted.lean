import TreeArchive.Proofs.Lexical
import TreeArchive.Proofs.OwnOutput
import TreeArchive.Proofs.Rerun

/-!
The files that a run leaves out of its archive for the name of the output. A run that succeeds has
met every file that stands in real directories below its source, and has kept it or has taken it, by
its name, for the output.
-/
namespace TreeArchive

open FileSystem

namespace FileSystem

variable {fs : FileSystem} {here : Place} {l : Location} {node : Node} {names : List Name}
  {p : Path}

/-- Names lead down through directories to what stands below a place. -/
theorem walk_below (h : fs.Placed here) (hget : fs.get? (here.location ++ names) = some node)
    (budget : Nat) : ∃ place, fs.walk false budget here names = .ok (.occupied place) ∧
      place.location = here.location ++ names := by
  induction names generalizing here with
  | nil => exact ⟨here, by rw [walk], (List.append_nil _).symm⟩
  | cons name rest ih =>
    have hsplit : here.location ++ name :: rest = (here.location ++ [name]) ++ rest := by simp
    have hlegal := legal_of_get? hget
    simp only [List.all_append, List.all_cons, Bool.and_eq_true] at hlegal
    have hnamed := named_of_isLegalName hlegal.2.1
    obtain ⟨inner, hinner⟩ : ∃ inner, fs.get? (here.location ++ [name]) = some inner := by
      rw [hsplit, get?, Node.get?_append] at hget
      obtain ⟨inner, hinner, -⟩ := Option.bind_eq_some_iff.1 hget
      exact ⟨inner, hinner⟩
    have hdir : here.node.kind = .directory := by
      obtain ⟨mode, nodes, hnode⟩ := Node.exists_parent_of_get? (by simp) hinner
      rw [List.dropLast_concat, show fs.root.get? here.location = _ from h.get?_location] at hnode
      rw [Option.some.inj hnode]
      rfl
    have hchild := h.child?_eq hinner
    have hlocation := Place.location_of_child? hchild
    by_cases hlink : inner.kind = .link
    · -- nothing stands below a link, so it is the last
      obtain ⟨target, rfl⟩ := Node.exists_of_kind_link hlink
      have hrest : rest = [] := by
        have hself := eq_of_prefix_of_get? hinner (by simp [Node.kind]) ⟨rest, hsplit.symm⟩ hget
        simpa using hself
      rw [hrest, walk_link hdir hnamed hchild rfl]
      exact ⟨_, rfl, hlocation⟩
    · rw [walk_node hdir hnamed hchild hlink, hsplit, ← hlocation]
      rw [hsplit, ← hlocation] at hget
      exact ih (h.child hchild) hget

/-- No step to `.` stands at the end of a path to what is no directory. -/
theorem getLast?_steps_of_find (h : fs.find p false = .ok (l, node))
    (hkind : node.kind ≠ .directory) : p.steps.getLast? ≠ some Path.dotName := by
  obtain ⟨here, place, init, name, hstart, hsteps, hwalk, -, rfl, -⟩ := exists_last_step h hkind
  obtain ⟨-, -, -, -, -, hnamed, -⟩ := last_of_walk (placed_of_start hstart) hwalk hkind
  rw [hsteps, List.getLast?_concat]
  exact fun heq => hnamed.ne_dot (Option.some.inj heq)

/-- A path with the names of a directory's path and more leads to what stands below the directory
under these, if that is no directory. -/
theorem location_of_names {source : Path} {lsrc : Location} {directory inner : Node}
    (hsource : fs.find source true = .ok (lsrc, directory)) (hne : names ≠ [])
    (hinner : fs.get? (lsrc ++ names) = some inner) (hfind : fs.find p false = .ok (l, node))
    (hkind : node.kind ≠ .directory) (habsolute : source.isAbsolute = p.isAbsolute)
    (hnames : p.names = source.names ++ names) : l = lsrc ++ names := by
  have hlast := getLast?_steps_of_find hfind hkind
  obtain ⟨-, here, place, hstart, hwalk, rfl, rfl⟩ := find_walk hfind
  obtain ⟨-, here', outer, hstart', hwalk', rfl, rfl⟩ := find_walk hsource
  obtain rfl : here' = here := by
    rw [start, habsolute] at hstart'
    exact Except.ok.inj (hstart'.symm.trans hstart)
  have hdot : ∀ n ∈ names, n ≠ Path.dotName := by
    have hlegal := legal_of_get? hinner
    rw [List.all_append, Bool.and_eq_true, List.all_eq_true, List.all_eq_true] at hlegal
    exact fun n hn => (Path.ordinary_of_isLegalName (hlegal.2 n hn)).ne_dot
  have hlast' : (source.steps ++ names).getLast? ≠ some Path.dotName := by
    rw [List.getLast?_append_of_ne_nil _ hne]
    exact fun h => hdot _ (List.mem_of_getLast? h) rfl
  have hfilter : (source.steps ++ names).filter (· != Path.dotName) = p.names := by
    rw [List.filter_append, ← Path.names_eq_filter, hnames, List.filter_eq_self.2]
    intro n hn
    simpa using hdot n hn
  rcases fs.walk_append maxLinks here' source.steps with
    ⟨reached, left, -, houter, hmore⟩ | ⟨hnone, -⟩
  · obtain rfl := Spot.occupied.inj (Except.ok.inj (hwalk'.symm.trans houter))
    obtain ⟨there, hthere, hlocation⟩ :=
      walk_below ((placed_of_start hstart).walk hwalk') hinner left
    have hboth : fs.walk false maxLinks here' p.steps = .ok (.occupied there) :=
      calc fs.walk false maxLinks here' p.steps
          = fs.walk false maxLinks here' p.names := by
            rw [Path.names_eq_filter, walk_undotted (undotted_filter hlast)]
        _ = fs.walk false maxLinks here' (source.steps ++ names) := by
            rw [← hfilter, walk_undotted (undotted_filter hlast')]
        _ = .ok (.occupied there) := (hmore false names hne).trans hthere
    obtain rfl := Spot.occupied.inj (Except.ok.inj (hwalk.symm.trans hboth))
    exact hlocation
  · exact absurd hwalk' (hnone outer)

end FileSystem

namespace Rules

variable {r : Rules} {fs : FileSystem} {names : List Name} {opened : List Location}
  {here : Location} {name : Name} {node : Node} {paths : List Path} {p : Path}

/-- Taking up what is kept and cannot be looked up tells of a fault. -/
theorem exists_fault_of_find_error {kind : Kind} (hkeeps : r.keeps p = true)
    (hlink : kind ≠ .link) (hfail : ∀ follow, ∃ e, fs.find p follow = .error e) :
    ∃ i ∈ r.traverse fs paths ⟨p, kind, false⟩, IsFault i := by
  have hlook : r.look fs paths ⟨p, kind, false⟩ = .ok ⟨p, kind, false⟩ := by
    rw [look, if_neg fun h => hlink h.2]
  rw [traverse_eq]
  by_cases hdir : kind = .directory
  · obtain ⟨e, he⟩ := hfail true
    have hlisting : r.listing fs p = [.error (p, e)] := by
      have hlist : fs.list p = .error e := by
        rw [list, he]
        rfl
      simp only [listing, hlist]
    have hvisit : r.visit fs paths ⟨p, kind, false⟩ = .directory p := by
      simp only [visit, hlook, hkeeps, Bool.not_true, Bool.false_eq_true, if_false, if_pos hdir]
    rw [hvisit, results, hlisting]
    exact ⟨_, List.mem_flatMap.2 ⟨_, List.mem_singleton_self _, List.mem_singleton_self _⟩,
      _, _, rfl⟩
  · obtain ⟨e, he⟩ := hfail (kind == .link)
    have hvisit : r.visit fs paths ⟨p, kind, false⟩ = .item (.error (.walk p e)) := by
      simp only [visit, hlook, hkeeps, Bool.not_true, Bool.false_eq_true, if_false, if_neg hdir,
        leaf, Bool.false_or, he]
    rw [hvisit]
    exact ⟨_, List.mem_singleton_self _, _, _, rfl⟩

/-- A new walk by the rules is told of no fault. -/
def Faultless (r : Rules) (fs : FileSystem) : Prop :=
  ∀ i ∈ r.results fs [] (r.begin fs), ¬IsFault i

/-- A walk without faults can look up what it keeps. -/
theorem find_of_faultless (hfaultless : r.Faultless fs)
    (hreached : r.settings.Reached fs names (here :: opened))
    (hvisible : r.Visible (names ++ [name])) (hentry : fs.get? (here ++ [name]) = some node)
    (hlink : node.kind ≠ .link) : isLegalName name = true ∧
      fs.find (r.settings.source.below (names ++ [name])) false = .ok (here ++ [name], node) := by
  obtain ⟨mode, nodes, hfind⟩ := find_of_reached hreached
  rw [get?_concat_of_directory (get?_of_find hfind)] at hentry
  obtain ⟨hnames, hkeeps⟩ := visible_concat.1 hvisible
  obtain ⟨paths, hopened, hp, hitems⟩ := mem_results_of_reached hreached hnames
  have hlegal := (asListed_child hfind hentry).1
  refine ⟨hlegal, ?_⟩
  rw [Path.below_concat] at hkeeps ⊢
  by_cases hlength : ((r.settings.source.below names).child name).bytes.length < maxPath
  · exact (find_child hlegal hp).2 ⟨hlength, here, mode, nodes, hfind, hentry, rfl⟩
  · -- the path is too long for any look-up, and the walk would have told of it
    exfalso
    have hfail (follow : Bool) :
        ∃ e, fs.find ((r.settings.source.below names).child name) follow = .error e := by
      cases hfound : fs.find ((r.settings.source.below names).child name) follow with
      | error e => exact ⟨e, rfl⟩
      | ok found => exact absurd ((checkPath_child hlegal hp).1 (find_walk hfound).1).2 hlength
    obtain ⟨i, hi, hfault⟩ := exists_fault_of_find_error hkeeps hlink hfail
    exact hfaultless i
      (hitems _ ((mem_listing_of_directory hfind).2 ⟨name, node, hentry, rfl⟩) i hi) hfault

/-- A walk without faults gets to the directories that are kept and stand in no link. -/
theorem reached_of_faultless {source : Node} {mode : Nat} {nodes : List (Name × Node)}
    (hfaultless : r.Faultless fs)
    (hsource : fs.find r.settings.source true = .ok (here, source)) (hvisible : r.Visible names)
    (hentry : fs.get? (here ++ names) = some (.directory mode nodes)) :
    ∃ opened, r.settings.Reached fs names ((here ++ names) :: opened) := by
  induction names using List.reverseRecOn generalizing mode nodes with
  | nil =>
    rw [List.append_nil, get?_of_find hsource] at hentry
    cases hentry
    exact ⟨[], by rw [List.append_nil]; exact .source hsource⟩
  | append_singleton names name ih =>
    rw [← List.append_assoc] at hentry ⊢
    obtain ⟨mode', nodes', houter⟩ := Node.exists_parent_of_get? (by simp) hentry
    rw [List.dropLast_concat] at houter
    obtain ⟨opened, hreached⟩ := ih (visible_concat.1 hvisible).1 houter
    obtain ⟨hlegal, hfind⟩ :=
      find_of_faultless hfaultless hreached hvisible hentry (by simp [Node.kind])
    exact ⟨_, .directory hreached hlegal hfind⟩

/-- A walk without faults finds the files that are kept and stand in no link. -/
theorem found_of_faultless {source : Node} {data : FileData} (hfaultless : r.Faultless fs)
    (hsource : fs.find r.settings.source true = .ok (here, source)) (hne : names ≠ [])
    (hvisible : r.Visible names) (hentry : fs.get? (here ++ names) = some (.file data)) :
    r.Found fs names data := by
  obtain ⟨front, name, rfl⟩ := (List.eq_nil_or_concat' names).resolve_left hne
  rw [← List.append_assoc] at hentry
  obtain ⟨mode, nodes, houter⟩ := Node.exists_parent_of_get? (by simp) hentry
  rw [List.dropLast_concat] at houter
  obtain ⟨opened, hreached⟩ :=
    reached_of_faultless hfaultless hsource (visible_concat.1 hvisible).1 houter
  obtain ⟨hlegal, hfind⟩ :=
    find_of_faultless hfaultless hreached hvisible hentry (by simp [Node.kind])
  exact ⟨⟨front, name, _, rfl, hlegal, hreached⟩, hvisible, _,
    find_true_of_ne_link hfind (by simp [Node.kind])⟩

end Rules

namespace Pack

variable {s : Settings} {w : Walk} {fs fs₀ fs₁ : FileSystem} {replaced : Bool} {handle : Handle}
  {report report' : Report}

/-- A run that succeeds completes what it starts. -/
theorem started_eq_completed {σ : Type} {source : Source σ} {limit : Nat} {state : σ} {run : Run}
    (h : (addAll s source limit state run report).2.2 = .ok report') :
    (addAll s source limit state run report).2.1.filterMap Event.started? =
      (addAll s source limit state run report).2.1.filterMap Event.completed? := by
  fun_induction addAll s source limit state run report with
  | case1 => rfl
  | case2 => rfl
  | case3 => rfl
  | case4 limit state run report fs entry state' hpull added events f hresult => cases h
  | case5 limit state run report fs entry state' hpull added events read hresult run' more result
      hrest ih =>
    have hcompleted : events.filterMap Event.completed? = [] :=
      filterMap_completed?_bytes added.written
    have hstarted : events.filterMap Event.started? = [entry.relative] :=
      congrArg (entry.relative :: ·) (filterMap_started?_bytes added.written)
    rw [hrest] at ih
    have hmore := ih h
    simp only [List.filterMap_append, hcompleted, hstarted, List.nil_append]
    exact congrArg (entry.relative :: ·) hmore

theorem packedRun_of_success (hwalk : Walk.ofSettings s = .ok w)
    (hcreated : Created fs s.output fs₀ replaced fs₁ handle)
    (hok : (packTree s fs).result = .ok report) :
    ∃ report', (packedRun s s.output walking (w.skip s.output) fs₁ handle replaced).2.2 =
      .ok report' := by
  obtain ⟨w', hvalid, hwalk'⟩ := exists_walk_of_ok hok
  obtain rfl := Except.ok.inj (hwalk.symm.trans hwalk')
  have hresult := result_of_created s walking (w.skip s.output) hcreated.reset hcreated.create
  rw [← packTree_eq hvalid hwalk, hok] at hresult
  cases hrun : (packedRun s s.output walking (w.skip s.output) fs₁ handle replaced).2.2 with
  | error f => simp [hrun, Except.map] at hresult
  | ok report' => exact ⟨report', rfl⟩

/-- A run that succeeds takes its archive's members, and its walk has met no fault. -/
theorem items_of_success (hwalk : Walk.ofSettings s = .ok w)
    (hcreated : Created fs s.output fs₀ replaced fs₁ handle)
    (hok : (packTree s fs).result = .ok report) :
    (takenFromTree s w fs₁ handle).map (fun t => unsized (.ok t.2)) =
      ((w.skip s.output).items fs₁).map unsized := by
  obtain ⟨report', hrun⟩ := packedRun_of_success hwalk hcreated hok
  exact taken_of_success (Nat.lt_succ_of_le (Walk.length_items_le fs₁ (w.skip s.output))) hrun

/-- The archive of a run that succeeds has a member for each entry that was taken. -/
theorem names_of_success (hwalk : Walk.ofSettings s = .ok w)
    (hcreated : Created fs s.output fs₀ replaced fs₁ handle)
    (hok : (packTree s fs).result = .ok report) :
    ∃ records, Leaves (packTree s fs) s.output handle.location records ∧
      records.map (fun record => record.member.name) =
        (takenFromTree s w fs₁ handle).map fun t => t.2.relative.text := by
  obtain ⟨w', hvalid, hwalk'⟩ := exists_walk_of_ok hok
  obtain rfl := Except.ok.inj (hwalk.symm.trans hwalk')
  obtain ⟨report', hrun⟩ := packedRun_of_success hwalk hcreated hok
  refine ⟨_, leaves_of_created hvalid hwalk hcreated, ?_⟩
  have htaken : (packedRun s s.output walking (w.skip s.output) fs₁ handle replaced).2.1.filterMap
      Event.started? = (takenFromTree s w fs₁ handle).map fun t => t.2.relative :=
    started_eq_taken s walking _ _ _ _
  have hcompleted : (packedRun s s.output walking (w.skip s.output) fs₁ handle
      replaced).2.1.filterMap Event.completed? =
        (takenFromTree s w fs₁ handle).map fun t => t.2.relative :=
    (started_eq_completed hrun).symm.trans htaken
  obtain ⟨last, hmembers, hinit⟩ := members_of_packedRun s s.output walking (w.skip s.output) fs₁
    handle replaced
  have hlast : last = [] := by
    have hlength := hinit.length_le
    rw [htaken, hcompleted, List.length_append] at hlength
    exact List.eq_nil_of_length_eq_zero (by omega)
  rw [hmembers, hlast, List.append_nil, hcompleted, List.map_map]
  rfl

/-- No member of an archive is named by the relative path of a file. -/
def Omits (records : List Archive.Record) (names : List Name) : Prop :=
  ∀ record ∈ records, ∀ relative : RelativePath,
    relative.components.map Text.Utf8.encode = names → record.member.name ≠ relative.text

variable {base names : List Name} {lsrc : Location} {source : Node} {data : FileData}

/-- Every entry that a run takes is found by its walk, under names below the source. -/
theorem found_of_mem_takenFromTree (hwalk : Walk.ofSettings s = .ok w)
    {t : FileSystem × Entry} (h : t ∈ takenFromTree s w fs₁ handle) : ∃ names data,
      Rules.Found ⟨s, w.rules.exclusions, [s.output.normalize]⟩ fs₁ names data ∧
        RelativePath.fromRoot (s.source.below names) s.root = .ok t.2.relative := by
  obtain ⟨-, hmem⟩ := mem_items_of_mem_taken h
  obtain ⟨i, hi, hunsized⟩ := List.mem_map.1 hmem
  obtain ⟨e, rfl, -, hrelative⟩ := eq_of_unsized_eq hunsized
  obtain ⟨names, data, hfound, hfrom, -⟩ := (Walk.mem_items_past_output hwalk).1 hi
  exact ⟨names, data, hfound, hrelative ▸ hfrom⟩

/-- All that the walk of a run that succeeds yields are entries, and the run takes them. -/
theorem taken_of_mem_items {i : Except Failure Entry} (hwalk : Walk.ofSettings s = .ok w)
    (hcreated : Created fs s.output fs₀ replaced fs₁ handle)
    (hok : (packTree s fs).result = .ok report)
    (hi : i ∈ Walk.items fs₁ ⟨⟨s, w.rules.exclusions, [s.output.normalize]⟩, true, []⟩) :
    ∃ e, i = .ok e ∧ ∃ t ∈ takenFromTree s w fs₁ handle, t.2.relative = e.relative := by
  have hall := items_of_success hwalk hcreated hok
  have hmem := List.mem_map_of_mem (f := unsized) hi
  rw [← Walk.skip_eq hwalk, ← hall] at hmem
  obtain ⟨t, ht, hunsized⟩ := List.mem_map.1 hmem
  obtain ⟨e, he, -, hrelative⟩ := eq_of_unsized_eq hunsized.symm
  exact ⟨e, he, t, ht, hrelative.symm⟩

theorem faultless_of_success (hwalk : Walk.ofSettings s = .ok w)
    (hcreated : Created fs s.output fs₀ replaced fs₁ handle)
    (hok : (packTree s fs).result = .ok report) :
    Rules.Faultless ⟨s, w.rules.exclusions, [s.output.normalize]⟩ fs₁ := by
  intro i hi
  rw [← Walk.items_of_fresh] at hi
  obtain ⟨e, rfl, -⟩ := taken_of_mem_items hwalk hcreated hok hi
  exact Rules.not_isFault_ok e

/-- A run that succeeds takes every file that its walk finds. -/
theorem taken_of_found (hwalk : Walk.ofSettings s = .ok w)
    (hcreated : Created fs s.output fs₀ replaced fs₁ handle)
    (hok : (packTree s fs).result = .ok report)
    (hfound : Rules.Found ⟨s, w.rules.exclusions, [s.output.normalize]⟩ fs₁ names data) :
    ∃ t ∈ takenFromTree s w fs₁ handle,
      RelativePath.fromRoot (s.source.below names) s.root = .ok t.2.relative := by
  obtain ⟨e, hitem, t, ht, hrelative⟩ := taken_of_mem_items hwalk hcreated hok
    ((Walk.mem_items_of_fresh Rules.not_isFault_itemOf).2 ⟨names, data, hfound, rfl⟩)
  refine ⟨t, ht, ?_⟩
  rw [hrelative]
  unfold Rules.itemOf at hitem
  cases hfrom : RelativePath.fromRoot (s.source.below names) s.root with
  | error f => simp [hfrom, Except.map] at hitem
  | ok relative =>
    simp only [hfrom, Except.map, Except.ok.injEq] at hitem
    rw [← hitem]

/-- A file that no pattern matches, nor any directory that it stands in, is left out by a run that
succeeds exactly if the output has the normal form of its path or of such a directory's. -/
theorem omits_iff (hwalk : Walk.ofSettings s = .ok w)
    (hbase : s.source.components = s.root.components ++ base.map .normal)
    (hcreated : Created fs s.output fs₀ replaced fs₁ handle)
    (hok : (packTree s fs).result = .ok report)
    (hsource : fs₁.find s.source true = .ok (lsrc, source)) (hne : names ≠ [])
    (hfile : fs₁.get? (lsrc ++ names) = some (.file data))
    (hunmatched : ∀ front, front ≠ [] → front <+: names → ∀ relative : RelativePath,
      relative.components.map Text.Utf8.encode = base ++ front →
        w.rules.exclusions.excludes relative = false)
    {records : List Archive.Record} (hnames : records.map (fun record => record.member.name) =
      (takenFromTree s w fs₁ handle).map fun t => t.2.relative.text) :
    Omits records (base ++ names) ↔ ∃ front, front ≠ [] ∧ front <+: names ∧
      (s.source.below front).normalize = s.output.normalize := by
  have hlegal : ∀ n ∈ names, isLegalName n = true := by
    have hall := legal_of_get? hfile
    rw [List.all_append, Bool.and_eq_true, List.all_eq_true, List.all_eq_true] at hall
    exact hall.2
  have hform {names : List Name} (hlegal : ∀ n ∈ names, isLegalName n = true) (hne : names ≠ [])
      {relative : RelativePath} : RelativePath.fromRoot (s.source.below names) s.root =
        .ok relative ↔ relative.components.map Text.Utf8.encode = base ++ names :=
    RelativePath.fromRoot_eq_ok (Settings.components_below_source hbase hlegal)
      (List.append_ne_nil_of_right_ne_nil base hne)
  constructor
  · -- a file that the walk keeps is found, and what is found is taken
    intro homits
    by_contra hnone
    simp only [not_exists, not_and] at hnone
    have hvisible : Rules.Visible ⟨s, w.rules.exclusions, [s.output.normalize]⟩ names := by
      intro front hfront hinit
      rw [Rules.keeps_eq_true]
      refine ⟨List.forall_mem_singleton.2 (hnone front hfront hinit), ?_⟩
      intro relative hrelative
      have hlegal' : ∀ n ∈ front, isLegalName n = true := fun n hn => hlegal n (hinit.subset hn)
      exact hunmatched front hfront hinit relative ((hform hlegal' hfront).1 hrelative)
    have hfound := Rules.found_of_faultless (faultless_of_success hwalk hcreated hok) hsource hne
      hvisible hfile
    obtain ⟨t, ht, hrelative⟩ := taken_of_found hwalk hcreated hok hfound
    have hname : t.2.relative.text ∈ records.map fun record => record.member.name := by
      rw [hnames]
      exact List.mem_map_of_mem ht
    obtain ⟨record, hrecord, htext⟩ := List.mem_map.1 hname
    exact homits record hrecord _ ((hform hlegal hne).1 hrelative) htext
  · -- a member of the name would have been found under the same names
    rintro ⟨front, hfront, hinit, heq⟩ record hrecord relative hencode htext
    have hname : record.member.name ∈
        (takenFromTree s w fs₁ handle).map fun t => t.2.relative.text := by
      rw [← hnames]
      exact List.mem_map_of_mem hrecord
    obtain ⟨t, ht, heq'⟩ := List.mem_map.1 hname
    obtain rfl := RelativePath.eq_of_text_eq (heq'.trans htext)
    obtain ⟨found, data, hfound, hfrom⟩ := found_of_mem_takenFromTree hwalk ht
    rw [hform hfound.listed.legal hfound.listed.ne_nil, hencode] at hfrom
    obtain rfl := List.append_cancel_left hfrom
    exact (Walk.found_past_output.1 hfound).2.1 front hfront hinit heq

/-- Without `..` in the source and in the output, the only file that is left out for the name of
the output is the output. -/
theorem location_of_normalize {front : List Name} (hne : front ≠ []) (hinit : front <+: names)
    (hcreated : Created fs s.output fs₀ replaced fs₁ handle)
    (hsource : fs₁.find s.source true = .ok (lsrc, source))
    (hfile : fs₁.get? (lsrc ++ names) = some (.file data))
    (hp : .parent ∉ s.source.components) (hq : .parent ∉ s.output.components)
    (heq : (s.source.below front).normalize = s.output.normalize) :
    lsrc ++ names = handle.location := by
  have hnew := createNew_of_createOutput hcreated.create
  obtain ⟨rest, rfl⟩ := hinit
  have hlegal := legal_of_get? hfile
  simp only [List.all_append, Bool.and_eq_true, List.all_eq_true] at hlegal
  have hordinary : ∀ n ∈ front, Path.Ordinary n := fun n hn =>
    Path.ordinary_of_isLegalName (hlegal.2.1 n hn)
  have hparent : .parent ∉ (s.source.below front).components := by
    rw [Path.components_below hordinary, List.mem_append, not_or]
    exact ⟨hp, by simp⟩
  obtain ⟨habsolute, hnames⟩ := Path.names_eq_of_normalize hparent hq heq
  rw [Path.names_below hordinary] at hnames
  rw [← List.append_assoc] at hfile ⊢
  obtain ⟨inner, hinner⟩ : ∃ inner, fs₁.get? (lsrc ++ front) = some inner := by
    rw [get?, Node.get?_append] at hfile
    obtain ⟨inner, hinner, -⟩ := Option.bind_eq_some_iff.1 hfile
    exact ⟨inner, hinner⟩
  have hl := location_of_names hsource hne hinner (find_createNew hnew false) (by simp [Node.kind])
    ((Path.isAbsolute_below hordinary (Rules.bytes_ne_nil_of_find hsource)).symm.trans habsolute)
    hnames.symm
  -- the output is a file, so nothing stands below it
  rw [hl]
  obtain ⟨-, -, -, -, -, -, -, hself⟩ := createNew_eq_ok hnew
  rw [hl] at hself
  exact eq_of_prefix_of_get? hself (by simp [Node.kind]) (List.prefix_append _ _) hfile

/-- What a run leaves out for the name of its output, if it succeeds: a regular file in real
directories below the source that no pattern matches, nor any of these directories, is left out
exactly if the output path has the normal form of the file's path or of such a directory's. The file
need not be the archive, but it is if neither the source nor the output has a `..`. -/
theorem omits_iff_normal_form (hwalk : Walk.ofSettings s = .ok w)
    (hbase : s.source.components = s.root.components ++ base.map .normal)
    (hcreated : Created fs s.output fs₀ replaced fs₁ handle)
    (hok : (packTree s fs).result = .ok report)
    (hsource : fs₁.find s.source true = .ok (lsrc, source)) (hne : names ≠ [])
    (hfile : fs₁.get? (lsrc ++ names) = some (.file data))
    (hunmatched : ∀ front, front ≠ [] → front <+: names → ∀ relative : RelativePath,
      relative.components.map Text.Utf8.encode = base ++ front →
        w.rules.exclusions.excludes relative = false) :
    ∃ records, Leaves (packTree s fs) s.output handle.location records ∧
      (Omits records (base ++ names) ↔ ∃ front, front ≠ [] ∧ front <+: names ∧
        (s.source.below front).normalize = s.output.normalize) ∧
      (.parent ∉ s.source.components → .parent ∉ s.output.components →
        Omits records (base ++ names) → lsrc ++ names = handle.location) := by
  obtain ⟨records, hleaves, hnames⟩ := names_of_success hwalk hcreated hok
  have homits := omits_iff hwalk hbase hcreated hok hsource hne hfile hunmatched hnames
  refine ⟨records, hleaves, homits, ?_⟩
  intro hp hq h
  obtain ⟨front, hfront, hinit, heq⟩ := homits.1 h
  exact location_of_normalize hfront hinit hcreated hsource hfile hp hq heq

/-- A file that has the name of the output, but for a link in the output path that leads to another
directory. -/
def hiddenTree : FileSystem :=
  .ofEntries 1
    [(.ofString "pkg", .directory 0o755
      [(.ofString "o.zip", .ofBytes 0 [0x6B]), (.ofString "x", .link (.ofString "/other/dir"))]),
    (.ofString "other", .directory 0o755 [(.ofString "dir", .directory 0o755 [])])]
    (by cbv)

/-- The same with the archive, which is empty yet. -/
def hiddenTreeCreated : FileSystem :=
  .ofEntries 2
    [(.ofString "pkg", .directory 0o755
      [(.ofString "o.zip", .ofBytes 0 [0x6B]), (.ofString "x", .link (.ofString "/other/dir"))]),
    (.ofString "other", .directory 0o755
      [(.ofString "o.zip", .ofBytes 1 []), (.ofString "dir", .directory 0o755 [])])]
    (by cbv)

def hiddenSettings : Settings :=
  { Settings.forRoot (.ofString "/pkg") with output := .ofString "/pkg/x/../o.zip" }

def hiddenHandle : Handle :=
  ⟨[.ofString "other", .ofString "o.zip"], 1⟩

theorem ofSettings_hiddenSettings : Walk.ofSettings hiddenSettings =
    .ok ⟨⟨hiddenSettings, Walk.plainExclusions, []⟩, true, []⟩ := by cbv

theorem created_hiddenTree :
    Created hiddenTree hiddenSettings.output hiddenTree false hiddenTreeCreated hiddenHandle :=
  created_of_vacant (by cbv) (by cbv)

/-- The walk takes the file for the output, and passes the link over. -/
theorem items_hiddenTree : Walk.items hiddenTreeCreated
    ⟨⟨hiddenSettings, Walk.plainExclusions, [hiddenSettings.output.normalize]⟩, true, []⟩ = [] := by
  have hbegin : (Rules.mk hiddenSettings Walk.plainExclusions
      [hiddenSettings.output.normalize]).begin hiddenTreeCreated =
        .directory hiddenSettings.source := by cbv
  have hlisting : (Rules.mk hiddenSettings Walk.plainExclusions
      [hiddenSettings.output.normalize]).listing hiddenTreeCreated hiddenSettings.source =
        [.ok ⟨.ofString "/pkg/o.zip", .file, false⟩, .ok ⟨.ofString "/pkg/x", .link, false⟩] := by
    cbv
  have hkeeps : (Rules.mk hiddenSettings Walk.plainExclusions
      [hiddenSettings.output.normalize]).keeps (.ofString "/pkg/o.zip") = false := by cbv
  have hleaf : (Rules.mk hiddenSettings Walk.plainExclusions
      [hiddenSettings.output.normalize]).leaf hiddenTreeCreated
        ⟨.ofString "/pkg/x", .link, false⟩ = .nothing := by cbv
  have hfollow : hiddenSettings.followLinks = false := rfl
  rw [Walk.items_of_fresh, hbegin, Rules.results, hlisting]
  simp [Rules.traverseItem, Rules.traverse_eq, Rules.visit, Rules.look, hkeeps, hleaf, hfollow,
    Rules.results]

theorem next_hiddenTree : Walk.next hiddenTreeCreated
    ⟨⟨hiddenSettings, Walk.plainExclusions, [hiddenSettings.output.normalize]⟩, true, []⟩ =
      none := by
  cases hnext : Walk.next hiddenTreeCreated
    ⟨⟨hiddenSettings, Walk.plainExclusions, [hiddenSettings.output.normalize]⟩, true, []⟩ with
  | none => rfl
  | some pulled =>
    have hitems := items_hiddenTree
    rw [Walk.items_of_next hnext] at hitems
    cases hitems

theorem success_hiddenTree :
    ∃ report, (packTree hiddenSettings hiddenTree).result = .ok report := by
  have hvalid : hiddenSettings.validate hiddenTree = .ok () := by cbv
  have hresult := result_of_created hiddenSettings walking
    (Walk.skip ⟨⟨hiddenSettings, Walk.plainExclusions, []⟩, true, []⟩ hiddenSettings.output)
    created_hiddenTree.reset created_hiddenTree.create
  rw [← packTree_eq hvalid ofSettings_hiddenSettings] at hresult
  have hrun : packedRun hiddenSettings hiddenSettings.output walking
      (Walk.skip ⟨⟨hiddenSettings, Walk.plainExclusions, []⟩, true, []⟩ hiddenSettings.output)
        hiddenTreeCreated hiddenHandle false =
          (⟨hiddenTreeCreated, hiddenHandle, .ofLevel hiddenSettings.level⟩, [],
            .ok (Report.ofOutput hiddenSettings.output false)) :=
    addAll_exhausted next_hiddenTree
  rw [hresult, hrun]
  exact ⟨_, rfl⟩

theorem omits_iff_normal_form_hidden : ∃ records,
    Leaves (packTree hiddenSettings hiddenTree) hiddenSettings.output hiddenHandle.location
        records ∧
      Omits records [.ofString "o.zip"] := by
  obtain ⟨report, hok⟩ := success_hiddenTree
  obtain ⟨mode, nodes, hsource⟩ : ∃ mode nodes, hiddenTreeCreated.find hiddenSettings.source true =
      .ok ([.ofString "pkg"], .directory mode nodes) := ⟨_, _, by cbv⟩
  have hfile : hiddenTreeCreated.get? ([.ofString "pkg"] ++ [.ofString "o.zip"]) =
      some (.file ⟨0, 0o644, .ofBytes ⟨⟨[0x6B]⟩⟩, none⟩) := by cbv
  have hunmatched : ∀ front : List Name, front ≠ [] → front <+: [.ofString "o.zip"] →
      ∀ relative : RelativePath, relative.components.map Text.Utf8.encode = [] ++ front →
        Walk.plainExclusions.excludes relative = false := by
    intro front hne hinit relative hencode
    obtain ⟨rest, rfl, hrest⟩ := (List.prefix_cons_iff.1 hinit).resolve_left hne
    rw [List.prefix_nil.1 hrest] at hencode
    obtain rfl : relative = .ofName "o.zip" (by decide) :=
      RelativePath.ext_encode (hencode.trans (by cbv))
    cbv
  obtain ⟨records, hleaves, homits, -⟩ := omits_iff_normal_form ofSettings_hiddenSettings (by cbv)
    created_hiddenTree hok hsource (by simp) hfile hunmatched
  refine ⟨records, hleaves, homits.2 ⟨[.ofString "o.zip"], by simp, List.prefix_refl _, ?_⟩⟩
  decide

/-- A file below the source that no pattern matches is not in the archive of a run that succeeds,
although the archive is written somewhere else. -/
theorem output_name_hides_file :
    (∃ report, (packTree hiddenSettings hiddenTree).result = .ok report) ∧
    (∃ node, hiddenTree.find hiddenSettings.source true = .ok ([.ofString "pkg"], node)) ∧
    hiddenTree.get? [.ofString "pkg", .ofString "o.zip"] = some (.ofBytes 0 [0x6B]) ∧
    (∃ x relative, hiddenSettings.exclusions = .ok x ∧ RelativePath.fromRoot
      (hiddenSettings.source.below [.ofString "o.zip"]) hiddenSettings.root = .ok relative ∧
        x.excludes relative = false) ∧
    Leaves (packTree hiddenSettings hiddenTree) hiddenSettings.output
      [.ofString "other", .ofString "o.zip"] [] := by
  obtain ⟨report, hok⟩ := success_hiddenTree
  obtain ⟨records, hleaves, hnames⟩ :=
    names_of_success ofSettings_hiddenSettings created_hiddenTree hok
  have hnone : records = [] := by
    have htaken : takenFromTree hiddenSettings
        ⟨⟨hiddenSettings, Walk.plainExclusions, []⟩, true, []⟩ hiddenTreeCreated hiddenHandle =
          [] := by
      simp only [takenFromTree, taken, walking, Walk.skip, List.nil_append, next_hiddenTree]
    rw [htaken] at hnames
    exact List.map_eq_nil_iff.1 hnames
  refine ⟨⟨report, hok⟩, ⟨_, by cbv⟩, by cbv, ⟨Walk.plainExclusions, .ofName "o.zip" (by decide),
    by cbv, by cbv, by cbv⟩, hnone ▸ hleaves⟩

end Pack

end TreeArchive
