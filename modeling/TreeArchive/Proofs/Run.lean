import TreeArchive.Pack
import TreeArchive.Proofs.Bare
import TreeArchive.Proofs.Extended

/-!
What a run does to the file system and to the archive, entry by entry. The only file that it writes
is its own output, and the archive takes one member for each entry.
-/
namespace TreeArchive

open FileSystem

namespace Archive.Writer

variable {w w' : Writer} {m : Member}

/-- The names of the members, the one being written included. -/
def names (w : Writer) : List String :=
  w.completed.map fun record => record.member.name

theorem names_of_start (h : w.start m = .ok w') :
    w'.names = w.names ++ [m.name] ∧ w'.current = some m ∧ w'.abort.names = w.names := by
  unfold start at h
  split at h
  · cases h
  · dsimp only at h
    split at h
    · cases h
    · cases h
      simp [names, completed, complete, last, abort, Record.ofMember]

theorem names_of_write {buffer : Nat} {content : Content} {taken : List Nat}
    (h : w.write buffer content = (taken, .ok w')) : w'.names = w.names := by
  unfold write at h
  split at h
  · cases h
  · rename_i m hcurrent
    have hname (content : Content) :
        { w with current := some { m with content := content } }.names = w.names := by
      simp [names, completed, last, hcurrent, Record.ofMember]
    dsimp only at h
    split at h
    · cases h
      exact hname content
    · split at h
      · cases h
        exact hname content
      · cases h

theorem exists_of_start_error {f : Failure} (h : w.start m = .error f) : ∃ e, f = .archive e := by
  unfold start at h
  split at h
  · cases h
    exact ⟨_, rfl⟩
  · dsimp only at h
    split at h
    · cases h
      exact ⟨_, rfl⟩
    · cases h

theorem exists_of_write_error {buffer : Nat} {content : Content} {taken : List Nat} {f : Failure}
    (h : w.write buffer content = (taken, .error f)) : ∃ e, f = .io e := by
  unfold write at h
  split at h
  · cases h
    exact ⟨_, rfl⟩
  · dsimp only at h
    split at h
    · cases h
    · split at h
      · cases h
      · cases h
        exact ⟨_, rfl⟩

end Archive.Writer

namespace FileSystem

/-- The file that a handle was opened for still stands where it stood. -/
def Holds (fs : FileSystem) (handle : Handle) : Prop :=
  handle.location ≠ [] ∧ ∃ data, fs.get? handle.location = some (.file data) ∧ data.id = handle.id

theorem holds_createNew {fs fs' : FileSystem} {p : Path} {handle : Handle}
    (h : fs.createNew p = .ok (fs', handle)) : fs'.Holds handle := by
  obtain ⟨_, _, -, -, -, -, hl, hself⟩ := createNew_eq_ok h
  exact ⟨hl, _, hself, rfl⟩

/-- What is stored is what the file holds afterwards. -/
theorem get?_store {fs : FileSystem} {handle : Handle} {data : FileData}
    (hl : handle.location ≠ []) (hfile : fs.get? handle.location = some (.file data))
    (hid : data.id = handle.id) (content : Content) (records : Option (List Archive.Record)) :
    (fs.store handle content records).get? handle.location =
      some (.file { data with content := content, records := records }) := by
  unfold store
  rw [get?_update hfile hl, Node.mapFile, if_pos hid]

theorem Holds.store {fs : FileSystem} {handle : Handle} (h : fs.Holds handle) (content : Content)
    (records : Option (List Archive.Record)) : (fs.store handle content records).Holds handle := by
  obtain ⟨hl, data, hfile, hid⟩ := h
  exact ⟨hl, _, get?_store hl hfile hid content records, hid⟩

end FileSystem

namespace Pack

variable {s : Settings} {run : Run} {entry : Entry}

/-- Adding a file leaves the names in the file system and the handle of the output as they are. -/
theorem addFile_frame (s : Settings) (run : Run) (entry : Entry) :
    (addFile s run entry).run.output = run.output ∧
      (addFile s run entry).run.fs.bare = run.fs.bare ∧
      (run.fs.Holds run.output → (addFile s run entry).run.fs.Holds run.output) := by
  unfold addFile
  dsimp only
  split
  · exact ⟨rfl, rfl, id⟩
  · split
    · exact ⟨rfl, rfl, id⟩
    · -- the header of the member goes into the output before the file is read
      rename_i writer _
      have hbare := bare_store run.fs run.output writer.visible none
      have hholds (h : run.fs.Holds run.output) := h.store writer.visible none
      split
      · exact ⟨rfl, hbare, hholds⟩
      · split
        · exact ⟨rfl, hbare, hholds⟩
        · exact ⟨rfl, hbare, hholds⟩

/-- An entry whose file has been read is the last member; one that failed may be. -/
theorem addFile_names (s : Settings) (run : Run) (entry : Entry) :
    (∃ read, (addFile s run entry).result = .ok read ∧
      (addFile s run entry).run.writer.names = run.writer.names ++ [entry.relative.text]) ∨
    ∃ f, (addFile s run entry).result = .error f ∧
      ((addFile s run entry).run.writer.names = run.writer.names ∨
        (addFile s run entry).run.writer.names = run.writer.names ++ [entry.relative.text]) := by
  unfold addFile
  dsimp only
  split
  · exact .inr ⟨_, rfl, .inl rfl⟩
  · split
    · exact .inr ⟨_, rfl, .inl rfl⟩
    · rename_i writer hstart
      obtain ⟨hnames, -, habort⟩ := Archive.Writer.names_of_start hstart
      split
      · exact .inr ⟨_, rfl, .inr hnames⟩
      · split
        · rename_i hwrite
          exact .inl ⟨_, rfl, (Archive.Writer.names_of_write hwrite).trans hnames⟩
        · -- a member that outgrows its header is taken back
          exact .inr ⟨_, rfl, .inl habort⟩

theorem names_of_added {read : Nat} (h : (addFile s run entry).result = .ok read) :
    (addFile s run entry).run.writer.names = run.writer.names ++ [entry.relative.text] := by
  rcases addFile_names s run entry with ⟨_, -, hnames⟩ | ⟨f, herror, -⟩
  · exact hnames
  · rw [h] at herror
    cases herror

/-- Adding a file fails because of the file, the archive or the writing. -/
theorem addFile_error {f : Failure} (h : (addFile s run entry).result = .error f) :
    (∃ p e, f = .unreadable p e) ∨ (∃ e, f = .archive e) ∨ ∃ e, f = .io e := by
  unfold addFile at h
  dsimp only at h
  split at h
  · exact .inl ⟨_, _, (Except.error.inj h).symm⟩
  · split at h
    · rename_i g hstart
      obtain rfl : g = f := Except.error.inj h
      exact .inr (.inl (Archive.Writer.exists_of_start_error hstart))
    · split at h
      · exact .inl ⟨_, _, (Except.error.inj h).symm⟩
      · split at h
        · cases h
        · rename_i g hwrite
          obtain rfl : g = f := Except.error.inj h
          exact .inr (.inr (Archive.Writer.exists_of_write_error hwrite))

/-- A source that changes nothing in the file system when it is pulled, in states of a kind that it
does not leave. -/
def Source.Quiet {σ : Type} (source : Source σ) (P : σ → Prop) : Prop :=
  ∀ fs state, P state → (source.pull fs state).1 = fs ∧
    ∀ item state', (source.pull fs state).2 = some (item, state') → P state'

theorem quiet_walking : walking.Quiet fun _ => True :=
  fun _ _ _ => ⟨rfl, fun _ _ _ => trivial⟩

theorem quiet_suppliedItems :
    suppliedItems.Quiet fun items => ∀ supplied ∈ items, ∀ fs, supplied.change fs = fs := by
  intro fs items hitems
  cases items with
  | nil => exact ⟨rfl, by simp [suppliedItems]⟩
  | cons supplied rest =>
    refine ⟨hitems supplied List.mem_cons_self fs, ?_⟩
    rintro _ _ ⟨⟩
    exact fun later hlater => hitems later (List.mem_cons_of_mem _ hlater)

end Pack

/-- The entry that an event starts. -/
def Event.started? : Event → Option RelativePath
  | .started name _ => some name
  | _ => none

/-- The entry that an event completes. -/
def Event.completed? : Event → Option RelativePath
  | .completed name => some name
  | _ => none

/-- The bytes that an event counts. -/
def Event.bytes? : Event → Option Nat
  | .bytes count => some count
  | _ => none

theorem filterMap_started?_bytes (written : List Nat) :
    (written.map Event.bytes).filterMap Event.started? = [] := by
  rw [List.filterMap_map]
  exact List.filterMap_eq_nil_iff.2 fun _ _ => rfl

theorem filterMap_completed?_bytes (written : List Nat) :
    (written.map Event.bytes).filterMap Event.completed? = [] := by
  rw [List.filterMap_map]
  exact List.filterMap_eq_nil_iff.2 fun _ _ => rfl

namespace Pack

variable {σ : Type} {source : Source σ}

theorem addAll_output (s : Settings) (source : Source σ) (limit : Nat) (state : σ) (run : Run)
    (report : Report) : (addAll s source limit state run report).1.output = run.output := by
  fun_induction addAll s source limit state run report with
  | case1 => rfl
  | case2 => rfl
  | case3 => rfl
  | case4 limit state run report fs entry state' hpull added events f hresult =>
    exact (addFile_frame s { run with fs := fs } entry).1
  | case5 limit state run report fs entry state' hpull added events read hresult run' more result
      hrest ih =>
    rw [hrest] at ih
    exact ih.trans (addFile_frame s { run with fs := fs } entry).1

/-- Pulling from a quiet source, a run changes no name in the file system, and its output stays in
its place. -/
theorem addAll_frame {P : σ → Prop} (hquiet : source.Quiet P) (s : Settings) (limit : Nat)
    {state : σ} (hstate : P state) (run : Run) (report : Report) :
    (addAll s source limit state run report).1.fs.bare = run.fs.bare ∧
      (run.fs.Holds run.output →
        (addAll s source limit state run report).1.fs.Holds run.output) := by
  have hsame {fs fs' : FileSystem} {state : σ} {pulled : Option (Except Failure Entry × σ)}
      (hstate : P state) (hpull : source.pull fs state = (fs', pulled)) : fs' = fs := by
    rw [← (hquiet fs state hstate).1, hpull]
  fun_induction addAll s source limit state run report with
  | case1 => exact ⟨rfl, id⟩
  | case2 limit state run report fs hpull =>
    obtain rfl := hsame hstate hpull
    exact ⟨rfl, id⟩
  | case3 limit state run report fs f state' hpull =>
    obtain rfl := hsame hstate hpull
    exact ⟨rfl, id⟩
  | case4 limit state run report fs entry state' hpull added events f hresult =>
    obtain rfl := hsame hstate hpull
    exact (addFile_frame s run entry).2
  | case5 limit state run report fs entry state' hpull added events read hresult run' more result
      hrest ih =>
    have hnext : P state' := (hquiet run.fs state hstate).2 _ _ (by rw [hpull])
    obtain rfl := hsame hstate hpull
    obtain ⟨houtput, hbare, hholds⟩ := addFile_frame s run entry
    rw [hrest] at ih
    -- what the rest of the run keeps, it keeps of what this entry has left
    refine ⟨(ih hnext).1.trans hbare, ?_⟩
    intro h
    have hrun := (ih hnext).2
    rw [houtput] at hrun
    exact hrun (hholds h)

/-- The members are the completed entries in their order, and after a failure perhaps the entry
that failed. -/
theorem addAll_names (s : Settings) (source : Source σ) (limit : Nat) (state : σ) (run : Run)
    (report : Report) :
    let run' := addAll s source limit state run report
    let completed := (run'.2.1.filterMap Event.completed?).map RelativePath.text
    ∃ last, last.length ≤ 1 ∧ run'.1.writer.names = run.writer.names ++ (completed ++ last) ∧
      completed ++ last <+: (run'.2.1.filterMap Event.started?).map RelativePath.text := by
  fun_induction addAll s source limit state run report with
  | case1 => exact ⟨[], by simp, by simp, by simp⟩
  | case2 => exact ⟨[], by simp, by simp, by simp⟩
  | case3 => exact ⟨[], by simp, by simp, by simp⟩
  | case4 limit state run report fs entry state' hpull added events f hresult =>
    have hcompleted : events.filterMap Event.completed? = [] :=
      filterMap_completed?_bytes added.written
    have hstarted : events.filterMap Event.started? = [entry.relative] :=
      congrArg (entry.relative :: ·) (filterMap_started?_bytes added.written)
    -- the run ends here, with a member begun or without one
    rcases addFile_names s { run with fs := fs } entry with ⟨read, hok, -⟩ | ⟨f', -, hsame | hnew⟩
    · rw [hok] at hresult
      cases hresult
    · exact ⟨[], by simp, by simp [hcompleted, added, hsame], by simp [hcompleted]⟩
    · exact ⟨[entry.relative.text], by simp, by simp [hcompleted, added, hnew],
        by simp [hcompleted, hstarted]⟩
  | case5 limit state run report fs entry state' hpull added events read hresult run' more result
      hrest ih =>
    have hcompleted : events.filterMap Event.completed? = [] :=
      filterMap_completed?_bytes added.written
    have hstarted : events.filterMap Event.started? = [entry.relative] :=
      congrArg (entry.relative :: ·) (filterMap_started?_bytes added.written)
    have hnames := names_of_added hresult
    rw [hrest] at ih
    obtain ⟨last, hlast, hmembers, hinit⟩ := ih
    refine ⟨last, hlast, ?_, ?_⟩
    · rw [hmembers, hnames]
      simp [hcompleted, Event.completed?]
    · have hskip : (Event.completed entry.relative :: more).filterMap Event.started? =
          more.filterMap Event.started? := rfl
      simpa [hcompleted, hstarted, hskip, Event.completed?] using hinit

/-- A run that has created its output, when its source has run dry or something has failed. -/
def packedRun (s : Settings) (output : Path) (source : Source σ) (state : σ) (fs₁ : FileSystem)
    (handle : Handle) (replaced : Bool) : Run × List Event × Except Failure Report :=
  addAll s source (source.limit fs₁ state) state ⟨fs₁, handle, .ofLevel s.level⟩
    (Report.ofOutput output replaced)

/-- Once it has created its output, a run only closes the archive behind its last entry. -/
theorem packFrom_created {fs fs₀ fs₁ : FileSystem} {output : Path} {replaced : Bool}
    {handle : Handle} (s : Settings) (source : Source σ) (state : σ)
    (hreset : resetOutput fs output = .ok (fs₀, replaced))
    (hcreate : createOutput fs₀ output = .ok (fs₁, handle)) :
    let run := packedRun s output source state fs₁ handle replaced
    (packFrom s output source state fs).fs = (close run.1).1 ∧
      ((packFrom s output source state fs).events = run.2.1 ∨
        (packFrom s output source state fs).events = run.2.1 ++ [.finished]) ∧
      ∀ f, (packFrom s output source state fs).result = .error f ↔ run.2.2 = .error f := by
  simp only [packFrom, hreset, hcreate]
  cases hresult : (packedRun s output source state fs₁ handle replaced).2.2 with
  | error f =>
    unfold packedRun at hresult ⊢
    simp only [hresult]
    exact ⟨trivial, .inl trivial, fun _ => trivial⟩
  | ok report =>
    unfold packedRun at hresult ⊢
    simp only [hresult]
    exact ⟨trivial, .inr trivial, fun _ => by simp⟩

/-- The report of a run is that of its entries, with the size of the archive. -/
theorem result_of_created {fs fs₀ fs₁ : FileSystem} {output : Path} {replaced : Bool}
    {handle : Handle} (s : Settings) (source : Source σ) (state : σ)
    (hreset : resetOutput fs output = .ok (fs₀, replaced))
    (hcreate : createOutput fs₀ output = .ok (fs₁, handle)) :
    let run := packedRun s output source state fs₁ handle replaced
    (packFrom s output source state fs).result = run.2.2.map fun report =>
      { report with archiveSize := (Archive.image run.1.writer.completed).size } := by
  simp only [packFrom, hreset, hcreate]
  cases hresult : (packedRun s output source state fs₁ handle replaced).2.2 with
  | error f =>
    unfold packedRun at hresult
    simp only [hresult]
    rfl
  | ok report =>
    unfold packedRun at hresult ⊢
    simp only [hresult]
    rfl

/-- A run tells of its entries, and of its end if it succeeds. -/
theorem events_of_created {fs fs₀ fs₁ : FileSystem} {output : Path} {replaced : Bool}
    {handle : Handle} (s : Settings) (source : Source σ) (state : σ)
    (hreset : resetOutput fs output = .ok (fs₀, replaced))
    (hcreate : createOutput fs₀ output = .ok (fs₁, handle)) :
    let run := packedRun s output source state fs₁ handle replaced
    (packFrom s output source state fs).events =
      run.2.1 ++ if run.2.2.isOk then [.finished] else [] := by
  simp only [packFrom, hreset, hcreate]
  cases hresult : (packedRun s output source state fs₁ handle replaced).2.2 with
  | error f =>
    unfold packedRun at hresult ⊢
    simp only [hresult]
    exact (List.append_nil _).symm
  | ok report =>
    unfold packedRun at hresult ⊢
    simp only [hresult]
    rfl

/-- A run that succeeds has created its output. -/
theorem exists_created_of_ok {s : Settings} {fs : FileSystem} {output : Path} {state : σ}
    {report : Report} (h : (packFrom s output source state fs).result = .ok report) :
    ∃ fs₀ replaced fs₁ handle, resetOutput fs output = .ok (fs₀, replaced) ∧
      createOutput fs₀ output = .ok (fs₁, handle) := by
  unfold packFrom at h
  split at h
  · cases h
  · rename_i fs₀ replaced hreset
    split at h
    · cases h
    · rename_i fs₁ handle hcreate
      exact ⟨fs₀, replaced, fs₁, handle, hreset, hcreate⟩

theorem exists_walk_of_ok {s : Settings} {fs : FileSystem} {report : Report}
    (h : (packTree s fs).result = .ok report) :
    ∃ w, s.validate fs = .ok () ∧ Walk.ofSettings s = .ok w := by
  unfold packTree at h
  split at h
  · cases h
  · cases h
  · rename_i w hvalid hwalk
    exact ⟨w, hvalid, hwalk⟩

/-- Packing the tree of valid settings is packing what the walk yields past the output. -/
theorem packTree_eq {s : Settings} {w : Walk} {fs : FileSystem} (hvalid : s.validate fs = .ok ())
    (hwalk : Walk.ofSettings s = .ok w) :
    packTree s fs = packFrom s s.output walking (w.skip s.output) fs := by
  simp only [packTree, hvalid, hwalk]

theorem createNew_of_createOutput {fs₀ fs₁ : FileSystem} {output : Path} {handle : Handle}
    (hcreate : createOutput fs₀ output = .ok (fs₁, handle)) :
    fs₀.createNew output = .ok (fs₁, handle) := by
  unfold createOutput at hcreate
  split at hcreate
  · cases hcreate
    assumption
  · split at hcreate <;> cases hcreate

end Pack

end TreeArchive
