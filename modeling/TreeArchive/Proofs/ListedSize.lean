import TreeArchive.Proofs.Twin

/-!
What the size decides that is listed for an entry. Two runs over entries with different listed sizes
are followed side by side, up to an entry for which one of the sizes asks for room in the header and
the other does not.
-/
namespace TreeArchive

open FileSystem

namespace Report

/-- What a report says of its run beside the warnings. -/
def unwarned (report : Report) : Report :=
  { report with warnings := [] }

/-- What a report says of its entries beside the warnings. -/
def core (report : Report) : Report :=
  { report with archiveSize := 0, warnings := [] }

end Report

namespace Pack

open Archive.Writer (outgrown)

section Items

variable {s : Settings} {run run' : Run} {report report' : Report} {item' : Supplied}
  {items items' : List Supplied} {entry : Entry} {size limit : Nat}
  {names : List String} {t : FileSystem × Entry} {entries : List (FileSystem × Entry)}

/-- The same item, but for the size that is listed. -/
inductive Relisted : Supplied → Supplied → Prop where
  | fault (change : FileSystem → FileSystem) (f : Failure) :
    Relisted ⟨change, .error f⟩ ⟨change, .error f⟩
  | entry (change : FileSystem → FileSystem) (entry : Entry) (size : Nat) :
    Relisted ⟨change, .ok entry⟩ ⟨change, .ok (entry.resized size)⟩

/-- A change that does not go by what an open file holds, and does not carry it elsewhere. -/
def Blind (change : FileSystem → FileSystem) (handle : Handle) : Prop :=
  ∀ fs fs' : FileSystem, fs'.veiled handle = fs.veiled handle →
    (change fs').veiled handle = (change fs).veiled handle

/-- The sizes listed for one of the entries that a run takes cross. -/
def SomeCrosses (s : Settings) (names : List String) (entries : List (FileSystem × Entry))
    (items' : List Supplied) : Prop :=
  ∃ i t item' entry', entries[i]? = some t ∧ items'[i]? = some item' ∧ item'.item = .ok entry' ∧
    Crosses s (names ++ (entries.take i).map fun t => t.2.relative.text) t entry'.size

theorem not_someCrosses_nil : ¬SomeCrosses s names [] items' := by
  rintro ⟨i, t, item', entry', ht, -⟩
  cases ht

theorem someCrosses_cons (hitem : item'.item = .ok (entry.resized size)) :
    SomeCrosses s names (t :: entries) (item' :: items') ↔
      Crosses s names t size ∨ SomeCrosses s (names ++ [t.2.relative.text]) entries items' := by
  constructor
  · rintro ⟨i, t', item, entry', ht, hitem', hentry, hcross⟩
    cases i with
    | zero =>
      cases ht
      cases hitem'
      cases hitem.symm.trans hentry
      rw [List.take_zero, List.map_nil, List.append_nil] at hcross
      exact .inl hcross
    | succ i =>
      refine .inr ⟨i, t', item, entry', ht, hitem', hentry, ?_⟩
      rw [List.take_succ_cons, List.map_cons] at hcross
      rwa [List.append_assoc]
  · rintro (hcross | ⟨i, t', item, entry', ht, hitem', hentry, hcross⟩)
    · refine ⟨0, t, item', _, rfl, rfl, hitem, ?_⟩
      rw [List.take_zero, List.map_nil, List.append_nil]
      exact hcross
    · refine ⟨i + 1, t', item, entry', ht, hitem', hentry, ?_⟩
      rw [List.take_succ_cons, List.map_cons]
      rwa [List.append_assoc] at hcross

theorem filesAdded_of_core (h : report'.core = report.core) :
    report'.filesAdded = report.filesAdded := by
  have hcore : report'.core.filesAdded = report.core.filesAdded := by rw [h]
  exact hcore

theorem core_count (h : report'.core = report.core) (entry : Entry) (size read : Nat) :
    (count report' (entry.resized size) read).core = (count report entry read).core := by
  obtain ⟨output, filesAdded, bytesRead, archiveSize, replaced, duration, warnings⟩ := report
  obtain ⟨output', filesAdded', bytesRead', archiveSize', replaced', duration', warnings'⟩ :=
    report'
  cases h
  rfl

/-- The two runs pull the same from items that differ in sizes only. -/
theorem Twin.changed (h : Twin run run') {change : FileSystem → FileSystem}
    (hblind : Blind change run.output) (hholds : (change run.fs).Holds run.output) :
    Twin { run with fs := change run.fs } { run' with fs := change run'.fs } where
  output := h.output
  veiled := hblind run.fs run'.fs h.veiled
  holds := hholds
  writer := h.writer

theorem completed_of_failed (name : RelativePath) (number : Nat) (pieces : List Nat) :
    (Event.started name number :: pieces.map .bytes).filterMap Event.completed? = [] :=
  filterMap_completed?_bytes pieces

theorem completed_of_added (name : RelativePath) (number : Nat) (pieces : List Nat)
    (more : List Event) :
    (Event.started name number :: pieces.map .bytes ++ .completed name :: more).filterMap
      Event.completed? = name :: more.filterMap Event.completed? := by
  rw [List.filterMap_append, completed_of_failed]
  rfl

section Equations

variable {σ : Type} {source : Source σ} {state state' : σ} {fs : FileSystem} {f : Failure}
  {read : Nat}

theorem addAll_of_fault (hpull : source.pull run.fs state = (fs, some (.error f, state'))) :
    addAll s source (limit + 1) state run report = ({ run with fs := fs }, [], .error f) := by
  simp only [addAll, hpull]

theorem taken_of_fault (hpull : source.pull run.fs state = (fs, some (.error f, state'))) :
    taken s source (limit + 1) state run = [] := by
  simp only [taken, hpull]

variable (hpull : source.pull run.fs state = (fs, some (.ok entry, state')))
include hpull

theorem addAll_of_failed (hresult : (addFile s { run with fs := fs } entry).result = .error f) :
    addAll s source (limit + 1) state run report =
      ((addFile s { run with fs := fs } entry).run,
        .started entry.relative (report.filesAdded + 1) ::
          (addFile s { run with fs := fs } entry).written.map .bytes, .error f) := by
  simp only [addAll, hpull, hresult]

theorem addAll_of_added (hresult : (addFile s { run with fs := fs } entry).result = .ok read) :
    addAll s source (limit + 1) state run report =
      let rest := addAll s source limit state' (addFile s { run with fs := fs } entry).run
        (count report entry read)
      (rest.1, .started entry.relative (report.filesAdded + 1) ::
        (addFile s { run with fs := fs } entry).written.map .bytes ++
          .completed entry.relative :: rest.2.1, rest.2.2) := by
  simp only [addAll, hpull, hresult]

theorem taken_of_failed (hresult : (addFile s { run with fs := fs } entry).result = .error f) :
    taken s source (limit + 1) state run = [(fs, entry)] := by
  simp only [taken, hpull, hresult]

theorem taken_of_added (hresult : (addFile s { run with fs := fs } entry).result = .ok read) :
    taken s source (limit + 1) state run = (fs, entry) ::
      taken s source limit state' (addFile s { run with fs := fs } entry).run := by
  simp only [taken, hpull, hresult]

/-- An entry that is pulled is taken. -/
theorem exists_taken_eq_cons (s : Settings) (limit : Nat) :
    ∃ entries, taken s source (limit + 1) state run = (fs, entry) :: entries := by
  cases hresult : (addFile s { run with fs := fs } entry).result with
  | error f => exact ⟨[], taken_of_failed hpull hresult⟩
  | ok read => exact ⟨_, taken_of_added hpull hresult⟩

end Equations

/-- How two runs end, side by side: alike if no sizes cross, and otherwise one of them fails at an
entry that the other completes. -/
def EndAlike (crossing : Prop) (last last' : Run × List Event × Except Failure Report) : Prop :=
  (¬crossing ∧ Twin last.1 last'.1 ∧ last'.2.1 = last.2.1 ∧
      last'.2.2.map Report.core = last.2.2.map Report.core) ∨
    (crossing ∧ last'.2.1.filterMap Event.completed? ≠ last.2.1.filterMap Event.completed? ∧
      (last.2.2 = .error outgrown ∨ last'.2.2 = .error outgrown))

section Next

variable {change : FileSystem → FileSystem}
  (h : Twin { run with fs := change run.fs } { run' with fs := change run'.fs })
  (hlevel : run.writer.level = s.level)
  (hapart : ¬(change run.fs).LeadsTo (entry.relative.resolve s.root) run.output.location)
include h hlevel hapart

/-- The sizes of the next entry cross. -/
theorem Twin.end_crossed (hcross : Crosses s run.writer.names (change run.fs, entry) size) :
    let items := ⟨change, .ok entry⟩ :: items
    let items' := ⟨change, .ok (entry.resized size)⟩ :: items'
    EndAlike (SomeCrosses s run.writer.names (taken s suppliedItems (limit + 1) items run) items')
      (addAll s suppliedItems (limit + 1) items run report)
      (addAll s suppliedItems (limit + 1) items' run' report') := by
  intro items items'
  have hpull : suppliedItems.pull run.fs items = (change run.fs, some (.ok entry, _)) := rfl
  have hpull' : suppliedItems.pull run'.fs items' =
    (change run'.fs, some (.ok (entry.resized size), _)) := rfl
  obtain ⟨entries, htaken⟩ := exists_taken_eq_cons hpull s limit
  rw [htaken]
  refine .inr ⟨(someCrosses_cons rfl).2 (.inl hcross), ?_⟩
  rcases h.crossed hlevel hapart hcross with ⟨hfails, read, hadded⟩ | ⟨hfails, read, hadded⟩
  · rw [addAll_of_failed hpull hfails, addAll_of_added hpull' hadded]
    refine ⟨?_, .inl rfl⟩
    rw [completed_of_added, completed_of_failed]
    exact List.cons_ne_nil _ _
  · rw [addAll_of_failed hpull' hfails, addAll_of_added hpull hadded]
    refine ⟨?_, .inr rfl⟩
    rw [completed_of_added, completed_of_failed]
    exact (List.cons_ne_nil _ _).symm

/-- The sizes of the next entry do not cross: either both runs fail at it, or both go on. -/
theorem Twin.end_uncrossed (hreport : report'.core = report.core)
    (hcross : ¬Crosses s run.writer.names (change run.fs, entry) size)
    (hrest : ∀ read, (addFile s { run with fs := change run.fs } entry).result = .ok read →
      EndAlike
        (SomeCrosses s (run.writer.names ++ [entry.relative.text])
          (taken s suppliedItems limit items
            (addFile s { run with fs := change run.fs } entry).run) items')
        (addAll s suppliedItems limit items (addFile s { run with fs := change run.fs } entry).run
          (count report entry read))
        (addAll s suppliedItems limit items'
          (addFile s { run' with fs := change run'.fs } (entry.resized size)).run
          (count report' (entry.resized size) read))) :
    let items := ⟨change, .ok entry⟩ :: items
    let items' := ⟨change, .ok (entry.resized size)⟩ :: items'
    EndAlike (SomeCrosses s run.writer.names (taken s suppliedItems (limit + 1) items run) items')
      (addAll s suppliedItems (limit + 1) items run report)
      (addAll s suppliedItems (limit + 1) items' run' report') := by
  intro others others'
  have hpull : suppliedItems.pull run.fs others = (change run.fs, some (.ok entry, items)) := rfl
  have hpull' : suppliedItems.pull run'.fs others' =
    (change run'.fs, some (.ok (entry.resized size), items')) := rfl
  have hnumber := filesAdded_of_core hreport
  -- if sizes cross, they do so behind this entry
  have hcons (entries : List (FileSystem × Entry)) :
      SomeCrosses s run.writer.names ((change run.fs, entry) :: entries) others' ↔
        SomeCrosses s (run.writer.names ++ [entry.relative.text]) entries items' :=
    (someCrosses_cons rfl).trans (or_iff_right hcross)
  obtain ⟨hadded, hwritten, hresult⟩ := h.added hlevel hapart hcross
  cases hread : (addFile s { run with fs := change run.fs } entry).result with
  | error f =>
    rw [taken_of_failed hpull hread, addAll_of_failed hpull hread,
      addAll_of_failed hpull' (hresult.trans hread), hwritten, hnumber]
    exact .inl ⟨mt (hcons []).1 not_someCrosses_nil, hadded, rfl, rfl⟩
  | ok read =>
    rw [taken_of_added hpull hread, addAll_of_added hpull hread,
      addAll_of_added hpull' (hresult.trans hread), hwritten, hnumber]
    rcases hrest read hread with ⟨hnone, htwin, hevents, hends⟩ | ⟨hsome, hevents, hends⟩
    · refine .inl ⟨mt (hcons _).1 hnone, htwin, ?_, hends⟩
      dsimp only
      rw [hevents]
      rfl
    · refine .inr ⟨(hcons _).2 hsome, ?_, hends⟩
      rw [completed_of_added, completed_of_added]
      exact fun heq => hevents (List.cons.inj heq).2

end Next

/-- Two runs over items that differ in listed sizes end alike, up to an entry whose sizes cross. -/
theorem Twin.end_alike (h : Twin run run') (hsame : List.Forall₂ Relisted items items')
    (hlimit : items.length < limit) (hlevel : run.writer.level = s.level)
    (hblind : ∀ item ∈ items, Blind item.change run.output)
    (hundisturbed : Undisturbed s suppliedItems limit items run)
    (hreport : report'.core = report.core) :
    EndAlike (SomeCrosses s run.writer.names (taken s suppliedItems limit items run) items')
      (addAll s suppliedItems limit items run report)
      (addAll s suppliedItems limit items' run' report') := by
  -- on the items: what carries over is that the runs are side by side and at the settings' level
  induction hsame generalizing run run' report report' limit with
  | nil =>
    obtain ⟨limit, rfl⟩ := Nat.exists_eq_add_one_of_ne_zero (Nat.ne_zero_of_lt hlimit)
    exact .inl ⟨not_someCrosses_nil, h, rfl, congrArg Except.ok hreport⟩
  | @cons item item' items items' hitem hitems ih =>
    obtain ⟨limit, rfl⟩ := Nat.exists_eq_add_one_of_ne_zero (Nat.ne_zero_of_lt hlimit)
    have hthis := hblind item List.mem_cons_self
    cases hitem with
    | fault change f =>
      have hpull : suppliedItems.pull run.fs (⟨change, .error f⟩ :: items) =
          (change run.fs, some (.error f, items)) := rfl
      have hpull' : suppliedItems.pull run'.fs (⟨change, .error f⟩ :: items') =
          (change run'.fs, some (.error f, items')) := rfl
      rw [taken_of_fault hpull, addAll_of_fault hpull, addAll_of_fault hpull']
      have hchanged := h.changed hthis (hundisturbed.holds hpull h.holds)
      exact .inl ⟨not_someCrosses_nil, hchanged, rfl, rfl⟩
    | entry change entry size =>
      have hpull : suppliedItems.pull run.fs (⟨change, .ok entry⟩ :: items) =
          (change run.fs, some (.ok entry, items)) := rfl
      have hchanged := h.changed hthis (hundisturbed.holds hpull h.holds)
      have hapart : ¬(change run.fs).LeadsTo (entry.relative.resolve s.root)
          run.output.location :=
        hundisturbed.apart (change run.fs, entry) (mem_taken_of_pull hpull)
      by_cases hcross : Crosses s run.writer.names (change run.fs, entry) size
      · exact hchanged.end_crossed hlevel hapart hcross
      · apply hchanged.end_uncrossed hlevel hapart hreport hcross
        intro read hread
        obtain ⟨hadded, -, -⟩ := hchanged.added hlevel hapart hcross
        obtain ⟨houtput, -, -⟩ := addFile_frame s { run with fs := change run.fs } entry
        obtain ⟨-, -, -, -, -, hlevel'⟩ := copy_of_addFile _ hchanged.holds hapart hlevel hread
        have hblind' : ∀ item ∈ items, Blind item.change
            (addFile s { run with fs := change run.fs } entry).run.output := by
          rw [houtput]
          exact fun item hitem => hblind item (List.mem_cons_of_mem _ hitem)
        have hnext := ih hadded (Nat.lt_of_succ_lt_succ hlimit) hlevel' hblind'
          (hundisturbed.rest hpull hread) (core_count hreport entry size read)
        rwa [names_of_added hread] at hnext

/-- The sizes listed for an entry ask for the same header. -/
def SameSide (item item' : Supplied) : Prop :=
  ∀ entry entry', item.item = .ok entry → item'.item = .ok entry' →
    (Archive.plainLimit ≤ entry'.size ↔ Archive.plainLimit ≤ entry.size)

/-- Where all sizes ask for the same headers, a run comes to the same whichever are listed. -/
theorem addAll_of_sameSide (hsame : List.Forall₂ Relisted items items')
    (hside : List.Forall₂ SameSide items items') (limit : Nat) (run : Run)
    (hreport : report'.core = report.core) :
    let last := addAll s suppliedItems limit items run report
    let last' := addAll s suppliedItems limit items' run report'
    last'.1 = last.1 ∧ last'.2.1 = last.2.1 ∧
      last'.2.2.map Report.core = last.2.2.map Report.core := by
  induction limit generalizing items items' run report report' with
  | zero => exact ⟨rfl, rfl, congrArg Except.ok hreport⟩
  | succ limit ih =>
    cases hsame with
    | nil => exact ⟨rfl, rfl, congrArg Except.ok hreport⟩
    | @cons item item' items items' hitem hitems =>
      obtain ⟨hthis, hothers⟩ := List.forall₂_cons.1 hside
      cases hitem with
      | fault change f => exact ⟨rfl, rfl, rfl⟩
      | entry change entry size =>
        have hpull : suppliedItems.pull run.fs (⟨change, .ok entry⟩ :: items) =
            (change run.fs, some (.ok entry, items)) := rfl
        have hpull' : suppliedItems.pull run.fs (⟨change, .ok (entry.resized size)⟩ :: items') =
            (change run.fs, some (.ok (entry.resized size), items')) := rfl
        have hnumber := filesAdded_of_core hreport
        have hadded : addFile s { run with fs := change run.fs } (entry.resized size) =
            addFile s { run with fs := change run.fs } entry :=
          addFile_resized s _ entry (hthis entry (entry.resized size) rfl rfl)
        have hresult := congrArg Added.result hadded
        cases hread : (addFile s { run with fs := change run.fs } entry).result with
        | error f =>
          rw [addAll_of_failed hpull hread, addAll_of_failed hpull' (hresult.trans hread), hadded,
            hnumber]
          exact ⟨rfl, rfl, rfl⟩
        | ok read =>
          obtain ⟨hrun, hevents, hends⟩ := ih hitems hothers
            (addFile s { run with fs := change run.fs } entry).run
            (core_count hreport entry size read)
          rw [addAll_of_added hpull hread, addAll_of_added hpull' (hresult.trans hread), hadded,
            hnumber]
          refine ⟨hrun, ?_, hends⟩
          dsimp only
          rw [hevents]
          rfl

end Items

section Closed

variable {s : Settings} {output : Path} {items items' : List Supplied}
  {fs fs₀ fs₁ : FileSystem} {replaced : Bool} {handle : Handle}
  {last last' : Run × List Event × Except Failure Report}

/-- What is left when the archive is closed behind the last entry. -/
def closed (last : Run × List Event × Except Failure Report) : Packed :=
  ⟨(close last.1).1, last.2.1 ++ if last.2.2.isOk then [.finished] else [],
    last.2.2.map fun report =>
      { report with archiveSize := (Archive.image last.1.writer.completed).size }⟩

theorem packItems_created (hreset : resetOutput fs output = .ok (fs₀, replaced))
    (hcreate : createOutput fs₀ output = .ok (fs₁, handle)) :
    packItems s output items fs = closed (addAll s suppliedItems (items.length + 1) items
      (startedRun s fs₁ handle) (Report.ofOutput output replaced)) := by
  obtain ⟨hfs, -, -⟩ := packFrom_created s suppliedItems items hreset hcreate
  have hevents := events_of_created s suppliedItems items hreset hcreate
  have hresult := result_of_created s suppliedItems items hreset hcreate
  calc
    packItems s output items fs = ⟨(packItems s output items fs).fs,
      (packItems s output items fs).events, (packItems s output items fs).result⟩ := rfl
    _ = closed (packedRun s output suppliedItems items fs₁ handle replaced) := by
      rw [packItems, hfs, hevents, hresult]
      rfl

/-- The file at a handle is the archive of some members. -/
def IsArchiveOf (packed : Packed) (handle : Handle) (records : List Archive.Record) : Prop :=
  ∃ data, packed.fs.get? handle.location = some (.file data) ∧
    data.content = Archive.image records ∧ data.records = some records

/-- Two runs leave the same but for the headers of members: they tell the same events, fail in the
same way or report the same but for warnings and the size of the archive, and their archives have
the same members. -/
structure SameButHeaders (handle : Handle) (packed packed' : Packed) : Prop where
  events : packed'.events = packed.events
  result : packed'.result.map Report.core = packed.result.map Report.core
  others : packed'.fs.veiled handle = packed.fs.veiled handle
  archive : ∃ records records', IsArchiveOf packed handle records ∧
    IsArchiveOf packed' handle records' ∧
      records'.map Archive.Record.plain = records.map Archive.Record.plain

theorem isArchiveOf_closed (h : last.1.fs.Holds last.1.output) :
    IsArchiveOf (closed last) last.1.output last.1.writer.completed := by
  obtain ⟨hl, data, hfile, hid⟩ := h
  exact ⟨_, get?_store hl hfile hid _ _, rfl, rfl⟩

theorem isOk_of_core (h : last'.2.2.map Report.core = last.2.2.map Report.core) :
    last'.2.2.isOk = last.2.2.isOk := by
  have hmap (result : Except Failure Report) : (result.map Report.core).isOk = result.isOk := by
    cases result <;> rfl
  rw [← hmap, h, hmap]

theorem core_closed (last : Run × List Event × Except Failure Report) :
    (closed last).result.map Report.core = last.2.2.map Report.core := by
  rw [closed]
  cases last.2.2 <;> rfl

/-- A result is, but for its warnings, made of what the report says of the entries and of the
members. -/
theorem unwarned_closed (last : Run × List Event × Except Failure Report) :
    (closed last).result.map Report.unwarned = (last.2.2.map Report.core).map fun report =>
      { report with archiveSize := (Archive.image last.1.writer.completed).size } := by
  rw [closed]
  cases last.2.2 <;> rfl

theorem completed_closed (last : Run × List Event × Except Failure Report) :
    (closed last).events.filterMap Event.completed? = last.2.1.filterMap Event.completed? := by
  have hend : (if last.2.2.isOk then [Event.finished] else []).filterMap Event.completed? = [] := by
    split <;> rfl
  rw [closed, List.filterMap_append, hend, List.append_nil]

theorem Twin.closed (h : Twin last.1 last'.1) (hevents : last'.2.1 = last.2.1)
    (hends : last'.2.2.map Report.core = last.2.2.map Report.core) :
    SameButHeaders last.1.output (closed last) (closed last') where
  events := by
    rw [Pack.closed, Pack.closed, hevents, isOk_of_core hends]
  result := by
    rw [core_closed, core_closed, hends]
  others := by
    change (close last'.1).1.veiled last.1.output = (close last.1).1.veiled last.1.output
    rw [close, close, h.output, veiled_store, veiled_store, h.veiled]
  archive := by
    have hholds' : last'.1.fs.Holds last'.1.output := h.output ▸ holds_of_veiled h.veiled h.holds
    have harchive' := isArchiveOf_closed hholds'
    rw [h.output] at harchive'
    exact ⟨_, _, isArchiveOf_closed h.holds, harchive', h.writer.completed⟩

/-- Where no output can be created, no item is looked at. -/
theorem packItems_of_uncreated (h : ∀ fs₀ replaced created,
    resetOutput fs output = .ok (fs₀, replaced) → createOutput fs₀ output ≠ .ok created)
    (items items' : List Supplied) :
    packItems s output items' fs = packItems s output items fs := by
  cases hreset : resetOutput fs output with
  | error f => simp only [packItems, packFrom, hreset]
  | ok reset =>
    obtain ⟨fs₀, replaced⟩ := reset
    cases hcreate : createOutput fs₀ output with
    | error f => simp only [packItems, packFrom, hreset, hcreate]
    | ok created => exact absurd hcreate (h fs₀ replaced created hreset)

theorem packItems_of_sameSide (hsame : List.Forall₂ Relisted items items')
    (hside : List.Forall₂ SameSide items items') :
    let packed := packItems s output items fs
    let packed' := packItems s output items' fs
    packed'.fs = packed.fs ∧ packed'.events = packed.events ∧
      packed'.result.map Report.unwarned = packed.result.map Report.unwarned := by
  intro packed packed'
  by_cases huncreated : ∀ fs₀ replaced created,
      resetOutput fs output = .ok (fs₀, replaced) → createOutput fs₀ output ≠ .ok created
  · have hpacked : packed' = packed := packItems_of_uncreated huncreated items items'
    rw [hpacked]
    exact ⟨rfl, rfl, rfl⟩
  · push Not at huncreated
    obtain ⟨fs₀, replaced, ⟨fs₁, handle⟩, hreset, hcreate⟩ := huncreated
    obtain ⟨hrun, hevents, hends⟩ := addAll_of_sameSide (s := s) hsame hside (items.length + 1)
      (startedRun s fs₁ handle) (rfl : (Report.ofOutput output replaced).core = _)
    have hpacked : packed = closed _ := packItems_created hreset hcreate
    have hpacked' : packed' = closed _ := packItems_created hreset hcreate
    rw [← hsame.length_eq] at hpacked'
    rw [hpacked, hpacked']
    refine ⟨?_, ?_, ?_⟩
    · rw [closed, closed, hrun]
    · rw [closed, closed, hevents, isOk_of_core hends]
    · rw [unwarned_closed, unwarned_closed, hrun, hends]

/-- A size that is listed decides which header a member gets, and what is warned of. If all sizes
ask for the same headers, two runs do the same but for their warnings. If they do not, two runs that
nothing disturbs do the same but for headers, unless the file of an entry that is started has
outgrown plain headers and only one of the sizes listed for it asks for another one; then one of the
runs fails at an entry that the other completes. -/
theorem listed_sizes_advisory_iff (s : Settings) (output : Path) (fs : FileSystem)
    (hsame : List.Forall₂ Relisted items items') :
    let packed := packItems s output items fs
    let packed' := packItems s output items' fs
    (List.Forall₂ SameSide items items' → packed'.fs = packed.fs ∧
      packed'.events = packed.events ∧
        packed'.result.map Report.unwarned = packed.result.map Report.unwarned) ∧
    ((∀ fs₀ replaced created, resetOutput fs output = .ok (fs₀, replaced) →
      createOutput fs₀ output ≠ .ok created) → packed' = packed) ∧
    ∀ fs₀ replaced fs₁ handle, resetOutput fs output = .ok (fs₀, replaced) →
      createOutput fs₀ output = .ok (fs₁, handle) →
      (∀ item ∈ items, Blind item.change handle) →
      Undisturbed s suppliedItems (items.length + 1) items (startedRun s fs₁ handle) →
      let crossing := SomeCrosses s [] (takenFromItems s items fs₁ handle) items'
      (SameButHeaders handle packed packed' ↔ ¬crossing) ∧
      (crossing →
        packed'.events.filterMap Event.completed? ≠ packed.events.filterMap Event.completed? ∧
          (packed.result = .error outgrown ∨ packed'.result = .error outgrown)) := by
  intro packed packed'
  refine ⟨packItems_of_sameSide hsame, fun h => packItems_of_uncreated h items items', ?_⟩
  intro fs₀ replaced fs₁ handle hreset hcreate hblind hundisturbed crossing
  have hstart : Twin (startedRun s fs₁ handle) (startedRun s fs₁ handle) :=
    ⟨rfl, rfl, holds_createNew (createNew_of_createOutput hcreate), ⟨rfl, rfl⟩⟩
  have hends := hstart.end_alike hsame (Nat.lt_add_one _) rfl hblind hundisturbed
    (rfl : (Report.ofOutput output replaced).core = _)
  have hpacked : packed = closed _ := packItems_created hreset hcreate
  have hpacked' : packed' = closed _ := packItems_created hreset hcreate
  have houtput := addAll_output s suppliedItems (items.length + 1) items (startedRun s fs₁ handle)
    (Report.ofOutput output replaced)
  rw [← hsame.length_eq] at hpacked'
  rw [hpacked, hpacked']
  rcases hends with ⟨hnone, htwin, hevents, hresults⟩ | ⟨hsome, hcompleted, hresults⟩
  · -- no sizes cross, and closing keeps the runs alike
    have hclosed := htwin.closed hevents hresults
    rw [houtput] at hclosed
    exact ⟨⟨fun _ => hnone, fun _ => hclosed⟩, fun hcross => absurd hcross hnone⟩
  · -- sizes cross, and the runs can be told apart by the entries that they complete
    rw [← completed_closed, ← completed_closed] at hcompleted
    refine ⟨⟨fun h => ?_, fun h => absurd hsome h⟩, fun _ => ⟨hcompleted, ?_⟩⟩
    · exact absurd (congrArg (List.filterMap Event.completed?) h.events) hcompleted
    · rcases hresults with h | h
      · left
        rw [closed, h]
        rfl
      · right
        rw [closed, h]
        rfl

end Closed

/-- One file, listed with some size. -/
def listing (size : Nat) : List Supplied :=
  [⟨id, .ok (rewrittenEntry.resized size)⟩]

theorem relisted_listing (size size' : Nat) :
    List.Forall₂ Relisted (listing size) (listing size') :=
  .cons (.entry id (rewrittenEntry.resized size) size') .nil

def outputHandle : Handle :=
  ⟨[.ofString "o.zip"], 1⟩

theorem eq_of_mem_taken_listing {fs : FileSystem} {t : FileSystem × Entry} {size : Nat}
    (h : t ∈ takenFromItems interruptedSettings (listing size) fs outputHandle) :
    t = (fs, rewrittenEntry.resized size) := by
  simp only [takenFromItems, listing, List.length_singleton, taken, suppliedItems] at h
  split at h
  · exact List.mem_singleton.1 h
  · exact List.mem_singleton.1 h

/-- A run over the listing is disturbed by nothing, if the file is apart from the output. -/
theorem undisturbed_listing {fs : FileSystem} (size : Nat)
    (hapart : ¬fs.LeadsTo (rewrittenEntry.relative.resolve interruptedSettings.root)
      outputHandle.location) :
    Undisturbed interruptedSettings suppliedItems ((listing size).length + 1) (listing size)
      (startedRun interruptedSettings fs outputHandle) where
  untouched := by
    intro x hx
    simp only [listing, List.length_singleton, pulls, suppliedItems] at hx
    rcases List.mem_cons.1 hx with rfl | hx
    · rfl
    · split at hx
      · cases hx
      · rw [List.mem_singleton.1 hx]
  apart := by
    intro t ht
    rw [eq_of_mem_taken_listing ht]
    exact hapart

theorem not_leadsTo_output {fs : FileSystem} {p : Path} (data : FileData)
    (h : fs.find p true = .ok ([.ofString "pkg", .ofString "a.txt"], .file data)) :
    ¬fs.LeadsTo p outputHandle.location := by
  rintro ⟨node, hfind⟩
  cases hfind.symm.trans h

/-- A small file is packed alike, also where its listed size asks for a large header. -/
theorem listed_sizes_advisory_iff_shrunk :
    SameButHeaders outputHandle
      (packItems interruptedSettings interruptedSettings.output (listing 4294967296)
        interruptedTree)
      (packItems interruptedSettings interruptedSettings.output (listing 1) interruptedTree) := by
  have hreset : resetOutput interruptedTree interruptedSettings.output =
      .ok (interruptedTree, false) := by cbv
  have hcreate : createOutput interruptedTree interruptedSettings.output =
      .ok (interruptedTreeCreated, outputHandle) := by cbv
  have hapart : ¬interruptedTreeCreated.LeadsTo
      (rewrittenEntry.relative.resolve interruptedSettings.root) outputHandle.location :=
    not_leadsTo_output ⟨0, 0o644, .ofBytes ⟨⟨[0x61]⟩⟩, none⟩ (by cbv)
  obtain ⟨-, -, hcreated⟩ := listed_sizes_advisory_iff interruptedSettings
    interruptedSettings.output interruptedTree (relisted_listing 4294967296 1)
  obtain ⟨hiff, -⟩ := hcreated _ _ _ _ hreset hcreate (by simp [listing, Blind])
    (undisturbed_listing 4294967296 hapart)
  apply hiff.2
  rintro ⟨i, t, item, entry, ht, -, -, hcross⟩
  obtain ⟨mode, content, hreads, hgrown⟩ := hcross.grown
  have hsmall : Reads interruptedSettings
      (interruptedTreeCreated, rewrittenEntry.resized 4294967296) 0o644 (.ofBytes ⟨⟨[0x61]⟩⟩) := by
    unfold Reads
    cbv
  rw [eq_of_mem_taken_listing (List.mem_of_getElem? ht)] at hreads
  cases hsmall.symm.trans hreads
  exact absurd hgrown (by decide)

/-- A run over the listing comes to what is made of its one file. -/
theorem result_of_listing {fs fs₀ fs₁ : FileSystem} {replaced : Bool}
    (hreset : resetOutput fs interruptedSettings.output = .ok (fs₀, replaced))
    (hcreate : createOutput fs₀ interruptedSettings.output = .ok (fs₁, outputHandle))
    (size : Nat) :
    (packItems interruptedSettings interruptedSettings.output (listing size) fs).result.map
        Report.bytesRead =
      (addFile interruptedSettings (startedRun interruptedSettings fs₁ outputHandle)
        (rewrittenEntry.resized size)).result := by
  have hpull : suppliedItems.pull (startedRun interruptedSettings fs₁ outputHandle).fs
      (listing size) = (fs₁, some (.ok (rewrittenEntry.resized size), [])) := rfl
  rw [packItems_created hreset hcreate]
  cases hadded : (addFile interruptedSettings (startedRun interruptedSettings fs₁ outputHandle)
      (rewrittenEntry.resized size)).result with
  | error f =>
    rw [closed, addAll_of_failed hpull hadded]
    rfl
  | ok read =>
    rw [closed, addAll_of_added hpull hadded]
    exact congrArg Except.ok (Nat.zero_add read)

/-- A file of 4 GiB. -/
def hugeContent : Content :=
  ⟨[⟨⟨#[0]⟩, 4294967296⟩]⟩

def hugeTree : FileSystem :=
  .ofEntries 1 [(.ofString "pkg", .directory 0o755
    [(.ofString "a.txt", .file ⟨0, 0o644, hugeContent, none⟩)])] (by cbv)

def hugeTreeCreated : FileSystem :=
  .ofEntries 2 [(.ofString "o.zip", .ofBytes 1 []), (.ofString "pkg", .directory 0o755
    [(.ofString "a.txt", .file ⟨0, 0o644, hugeContent, none⟩)])] (by cbv)

/-- A file of 4 GiB is packed if this size is listed for it, and not if a smaller one is. -/
theorem huge_file_packed_as_listed :
    let packed (size : Nat) :=
      packItems interruptedSettings interruptedSettings.output (listing size) hugeTree
    List.Forall₂ Relisted (listing 1) (listing 4294967296) ∧
    (packed 1).result.map Report.bytesRead = .error outgrown ∧
    (packed 4294967296).result.map Report.bytesRead = .ok 4294967296 := by
  intro packed
  have hreset : resetOutput hugeTree interruptedSettings.output = .ok (hugeTree, false) := by cbv
  have hcreate : createOutput hugeTree interruptedSettings.output =
      .ok (hugeTreeCreated, outputHandle) := by cbv
  have hholds : (startedRun interruptedSettings hugeTreeCreated outputHandle).fs.Holds
      (startedRun interruptedSettings hugeTreeCreated outputHandle).output :=
    holds_createNew (createNew_of_createOutput hcreate)
  have hapart (size : Nat) : ¬hugeTreeCreated.LeadsTo
      ((rewrittenEntry.resized size).relative.resolve interruptedSettings.root)
        outputHandle.location :=
    not_leadsTo_output ⟨0, 0o644, hugeContent, none⟩ (by cbv)
  have hreads (size : Nat) : Reads interruptedSettings
      (hugeTreeCreated, rewrittenEntry.resized size) 0o644 hugeContent := by
    unfold Reads
    cbv
  have hsmall := addFile_given_up hholds (hapart 1) rfl List.not_mem_nil (hreads 1) (by decide)
    (by decide)
  have hlarge := addFile_kept hholds (hapart 4294967296) rfl List.not_mem_nil (hreads 4294967296)
    (.inl (by decide))
  have hresult := result_of_listing hreset hcreate
  exact ⟨relisted_listing 1 4294967296, (hresult 1).trans (congrArg Added.result hsmall),
    (hresult 4294967296).trans (congrArg Added.result hlarge)⟩

end Pack

end TreeArchive
