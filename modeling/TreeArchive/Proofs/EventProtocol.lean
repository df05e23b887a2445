import TreeArchive.Checked
import TreeArchive.Proofs.Copied
import TreeArchive.Proofs.FailedRun
import TreeArchive.Proofs.Stages

/-!
The events of a run. Each entry that is packed has a block of its own, under the number of its turn:
it is started, the bytes of its file are counted, it is completed. The first item that fails ends
the run, with a block that is not completed or with none; the end of the run is told only where all
items have been packed.
-/
namespace TreeArchive

open FileSystem

/-- No piece is empty, and none is longer than the buffer. -/
theorem Content.mem_chunks {buffer size n : Nat} (hbuffer : 0 < buffer)
    (h : n ∈ chunks buffer size) : 1 ≤ n ∧ n ≤ buffer := by
  rcases List.mem_append.1 h with hfull | hrest
  · obtain ⟨-, rfl⟩ := List.mem_replicate.1 hfull
    exact ⟨hbuffer, Nat.le_refl _⟩
  · have hless := Nat.mod_lt size hbuffer
    split at hrest
    · cases hrest
    · obtain rfl := List.mem_singleton.1 hrest
      omega

namespace Archive.Writer

variable {w w' : Writer} {content : Content} {buffer limit written : Nat} {pieces : List Nat}

theorem fitting_prefix (limit written : Nat) (pieces : List Nat) :
    (fitting limit written pieces).1 <+: pieces := by
  induction pieces generalizing written with
  | nil => exact List.prefix_refl []
  | cons piece rest ih =>
    rw [fitting]
    split
    · exact List.nil_prefix
    · exact List.cons_prefix_cons.2 ⟨rfl, ih _⟩

theorem fitting_complete (h : (fitting limit written pieces).2 = true) :
    (fitting limit written pieces).1 = pieces := by
  induction pieces generalizing written with
  | nil => rfl
  | cons piece rest ih =>
    rw [fitting] at h ⊢
    split at h
    · cases h
    · rename_i hfits
      rw [if_neg hfits]
      exact congrArg (piece :: ·) (ih h)

/-- Whatever becomes of a member, what it takes are the first pieces of its content. -/
theorem prefix_of_write {result : Except Failure Writer}
    (h : w.write buffer content = (pieces, result)) :
    pieces <+: Content.chunks buffer content.size := by
  have hfitting := fitting_prefix plainLimit 0 (Content.chunks buffer content.size)
  unfold write at h
  split at h
  · cases h
    exact List.nil_prefix
  · dsimp only at h
    split at h
    · cases h
      exact List.prefix_refl _
    · split at h <;> rename_i hfit <;> rw [hfit] at hfitting <;> cases h <;> exact hfitting

/-- A member that is written has taken its content to the end. -/
theorem chunks_of_write (h : w.write buffer content = (pieces, .ok w')) :
    pieces = Content.chunks buffer content.size := by
  unfold write at h
  split at h
  · cases h
  · dsimp only at h
    split at h
    · cases h
      rfl
    · split at h
      · rename_i hfit
        cases h
        have hcomplete := fitting_complete (congrArg Prod.snd hfit)
        rwa [hfit] at hcomplete
      · cases h

end Archive.Writer

namespace Pack

/-- The events of an entry that is packed. -/
def block (number : Nat) (name : RelativePath) (pieces : List Nat) : List Event :=
  .started name number :: pieces.map .bytes ++ [.completed name]

/-- An entry that has been packed: what its file held, and the pieces in which it was read. -/
structure Turn where
  entry : Entry
  content : Content
  pieces : List Nat

/-- The blocks of turns, numbered without gaps. -/
def blocks : Nat → List Turn → List Event
  | _, [] => []
  | number, turn :: rest =>
    block number turn.entry.relative turn.pieces ++ blocks (number + 1) rest

/-- Counts that may be told: none is zero, and none is more than a piece holds. -/
def Countable (pieces : List Nat) : Prop :=
  ∀ n ∈ pieces, 1 ≤ n ∧ n ≤ bufferSize

/-- A turn is taken: once the header of its member has been written, its file is read to the end, in
pieces that together are what it held. -/
structure Takes (s : Settings) (run : Run) (turn : Turn) (next : Run) : Prop where
  added : addFile s run turn.entry = ⟨next, turn.pieces, .ok turn.content.size⟩
  read : ∃ opened writer, run.fs.openFile (turn.entry.relative.resolve s.root) = .ok opened ∧
    run.writer.start (memberOf s turn.entry opened.mode) = .ok writer ∧
    ((run.started writer).fs.openFile (turn.entry.relative.resolve s.root) >>= Opened.read) =
      .ok turn.content
  countable : Countable turn.pieces
  sum : turn.pieces.sum = turn.content.size

variable {σ : Type} {source : Source σ} {s : Settings} {state state' : σ} {run run' last : Run}
  {turn : Turn} {turns : List Turn}

/-- An entry takes its turn, or fails when some of its bytes may have been counted. -/
theorem takes_or_fails (s : Settings) (run : Run) (entry : Entry) :
    (∃ turn next, turn.entry = entry ∧ Takes s run turn next) ∨
    ∃ next pieces f, addFile s run entry = ⟨next, pieces, .error f⟩ ∧ Countable pieces := by
  have hnone : Countable [] := List.forall_mem_nil _
  have hchunks (content : Content) : Countable (Content.chunks bufferSize content.size) :=
    fun n hn => Content.mem_chunks (by decide) hn
  cases hopen : run.fs.openFile (entry.relative.resolve s.root) with
  | error e => exact .inr ⟨_, _, _, addFile_unopened hopen, hnone⟩
  | ok opened =>
    cases hstart : run.writer.start (memberOf s entry opened.mode) with
    | error f => exact .inr ⟨_, _, _, addFile_refused hopen hstart, hnone⟩
    | ok writer =>
      cases hread : (run.started writer).fs.openFile (entry.relative.resolve s.root) >>=
          Opened.read with
      | error e => exact .inr ⟨_, _, _, addFile_unread hopen hstart hread, hnone⟩
      | ok content =>
        rcases hwrite : writer.write bufferSize content with ⟨pieces, f | next⟩
        · -- a member that outgrows its header has taken some pieces before
          have hinit := Archive.Writer.prefix_of_write hwrite
          exact .inr ⟨_, _, _, addFile_outgrown hopen hstart hread hwrite,
            fun n hn => hchunks content n (hinit.subset hn)⟩
        · obtain rfl := Archive.Writer.chunks_of_write hwrite
          exact .inl ⟨⟨entry, content, Content.chunks bufferSize content.size⟩, _, rfl,
            addFile_written hopen hstart hread hwrite, ⟨opened, writer, hopen, hstart, hread⟩,
            hchunks content, Content.sum_chunks bufferSize content.size⟩

/-- A run pulls entries from its source and packs them, each before the next is pulled. -/
inductive Goes (s : Settings) (source : Source σ) : σ → Run → List Turn → σ → Run → Prop where
  | stays {state : σ} {run : Run} : Goes s source state run [] state run
  | on {state state' state'' : σ} {run next run' : Run} {fs : FileSystem} {turn : Turn}
      {turns : List Turn} (pull : source.pull run.fs state = (fs, some (.ok turn.entry, state')))
      (takes : Takes s { run with fs := fs } turn next)
      (rest : Goes s source state' next turns state'' run') :
      Goes s source state run (turn :: turns) state'' run'

/-- A run comes to its end: nothing is left to be pulled, or the item that is pulled is a failure or
an entry that fails. The entry has been started, under its number, and is not completed. -/
inductive Stops (s : Settings) (source : Source σ) (state : σ) (run : Run) (number : Nat) :
    Run → List Event → Except Failure Unit → Prop where
  | dry {fs : FileSystem} (pull : source.pull run.fs state = (fs, none)) :
      Stops s source state run number { run with fs := fs } [] (.ok ())
  | fault {fs : FileSystem} {f : Failure} {state' : σ}
      (pull : source.pull run.fs state = (fs, some (.error f, state'))) :
      Stops s source state run number { run with fs := fs } [] (.error f)
  | entry {fs : FileSystem} {entry : Entry} {f : Failure} {state' : σ} {last : Run}
      {pieces : List Nat} (pull : source.pull run.fs state = (fs, some (.ok entry, state')))
      (fails : addFile s { run with fs := fs } entry = ⟨last, pieces, .error f⟩)
      (countable : Countable pieces) :
      Stops s source state run number last (.started entry.relative number :: pieces.map .bytes)
        (.error f)

/-- A report that counts some turns more. -/
def countAll (report : Report) (turns : List Turn) : Report :=
  turns.foldl (fun report turn => count report turn.entry turn.content.size) report

theorem filesAdded_countAll (report : Report) (turns : List Turn) :
    (countAll report turns).filesAdded = report.filesAdded + turns.length := by
  induction turns generalizing report with
  | nil => rfl
  | cons turn rest ih =>
    rw [countAll, List.foldl_cons, ← countAll, ih, List.length_cons]
    simp only [count]
    omega

theorem bytesRead_countAll (report : Report) (turns : List Turn) :
    (countAll report turns).bytesRead =
      report.bytesRead + (turns.map fun turn => turn.content.size).sum := by
  induction turns generalizing report with
  | nil => rfl
  | cons turn rest ih =>
    rw [countAll, List.foldl_cons, ← countAll, ih, List.map_cons, List.sum_cons]
    simp only [count]
    omega

/-- Counts a turn in numbers of 64 bits. -/
def countChecked (report : Report) (turn : Turn) : Except Panic Report := do
  let filesAdded ← Checked.add report.filesAdded 1
  let bytesRead ← Checked.add report.bytesRead turn.content.size
  return { count report turn.entry turn.content.size with
    filesAdded := filesAdded
    bytesRead := bytesRead }

/-- Counted in 64 bits a report is the same as long as what it counts are such numbers. -/
theorem foldlM_countChecked {report : Report} {turns : List Turn}
    (hfiles : (countAll report turns).filesAdded < UInt64.size)
    (hbytes : (countAll report turns).bytesRead < UInt64.size) :
    turns.foldlM countChecked report = .ok (countAll report turns) := by
  induction turns generalizing report with
  | nil => rfl
  | cons turn rest ih =>
    -- the counters only grow, so they fit also after this turn
    have hadded := filesAdded_countAll report (turn :: rest)
    have hread := bytesRead_countAll report (turn :: rest)
    rw [List.length_cons] at hadded
    rw [List.map_cons, List.sum_cons] at hread
    have hturn : countChecked report turn = .ok (count report turn.entry turn.content.size) := by
      have hone : report.filesAdded + 1 < UInt64.size := by omega
      have hsize : report.bytesRead + turn.content.size < UInt64.size := by omega
      rw [countChecked, Checked.add_of_lt hone, Checked.add_of_lt hsize]
      rfl
    rw [List.foldlM_cons, hturn]
    exact ih hfiles hbytes

theorem Goes.sum (h : Goes s source state run turns state' run') :
    (turns.flatMap Turn.pieces).sum = (turns.map fun turn => turn.content.size).sum := by
  induction h with
  | stays => rfl
  | on pull takes rest ih =>
    rw [List.flatMap_cons, List.sum_append, List.map_cons, List.sum_cons, takes.sum, ih]

/-- The turns that a run takes are told in their blocks, and the rest of the run behind them. -/
theorem Goes.addAll (h : Goes s source state run turns state' run') (limit : Nat)
    (report : Report) :
    addAll s source (turns.length + limit) state run report =
      let rest := addAll s source limit state' run' (countAll report turns)
      (rest.1, blocks (report.filesAdded + 1) turns ++ rest.2.1, rest.2.2) := by
  induction h generalizing report with
  | stays => simp [countAll, blocks]
  | @on state state' state'' run next run' fs turn turns pull takes rest ih =>
    have hlimit : (turn :: turns).length + limit = turns.length + limit + 1 := by
      rw [List.length_cons]
      omega
    rw [hlimit, Pack.addAll]
    simp only [pull, takes.added, ih]
    simp [blocks, block, countAll, count]

theorem Stops.addAll {events : List Event} {result : Except Failure Unit} {report : Report}
    (h : Stops s source state run (report.filesAdded + 1) last events result) (limit : Nat) :
    addAll s source (limit + 1) state run report = (last, events, result.map fun _ => report) := by
  cases h with
  | dry pull =>
    simp only [Pack.addAll, pull]
    rfl
  | fault pull =>
    simp only [Pack.addAll, pull]
    rfl
  | entry pull fails =>
    simp only [Pack.addAll, pull, fails]
    rfl

/-- A run goes on for as many turns as it may, or it comes to its end before. -/
theorem exists_goes (s : Settings) (source : Source σ) (limit number : Nat) (state : σ)
    (run : Run) : ∃ turns state' run', Goes s source state run turns state' run' ∧
      (turns.length = limit ∨ turns.length < limit ∧
        ∃ last events result, Stops s source state' run' (number + turns.length) last events
          result) := by
  -- by induction on the limit: an entry that takes its turn leaves a run with one turn less
  induction limit generalizing number state run with
  | zero => exact ⟨[], state, run, .stays, .inl rfl⟩
  | succ limit ih =>
    have hstop {last : Run} {events : List Event} {result : Except Failure Unit}
        (h : Stops s source state run number last events result) :
        ∃ turns state' run', Goes s source state run turns state' run' ∧
          (turns.length = limit + 1 ∨ turns.length < limit + 1 ∧
            ∃ last events result, Stops s source state' run' (number + turns.length) last events
              result) :=
      ⟨[], state, run, .stays, .inr ⟨Nat.succ_pos limit, last, events, result, h⟩⟩
    rcases hpull : source.pull run.fs state with ⟨fs, _ | ⟨f | entry, state'⟩⟩
    · exact hstop (.dry hpull)
    · exact hstop (.fault hpull)
    · rcases takes_or_fails s { run with fs := fs } entry with
        ⟨turn, next, rfl, htakes⟩ | ⟨next, pieces, f, hfails, hcountable⟩
      · obtain ⟨turns, state'', run', hgoes, hends⟩ := ih (number + 1) state' next
        refine ⟨turn :: turns, state'', run', .on hpull htakes hgoes, ?_⟩
        rw [List.length_cons]
        rcases hends with hlength | ⟨hless, last, events, result, hstops⟩
        · exact .inl (congrArg (· + 1) hlength)
        · refine .inr ⟨by omega, last, events, result, ?_⟩
          rwa [Nat.add_comm turns.length 1, ← Nat.add_assoc]
      · exact hstop (.entry hpull hfails hcountable)

/-- What a run leaves that has taken some turns and come to its end. -/
def packedAs (output : Path) (replaced : Bool) (turns : List Turn) (last : Run)
    (events : List Event) : Except Failure Unit → Packed
  | .ok () => ⟨(close last).1, blocks 1 turns ++ events ++ [.finished],
      .ok { countAll (Report.ofOutput output replaced) turns with
        archiveSize := (close last).2.size }⟩
  | .error f => ⟨(close last).1, blocks 1 turns ++ events, .error f⟩

section Created

variable {output : Path} {fs fs₀ fs₁ : FileSystem} {replaced : Bool} {handle : Handle}
  {events : List Event} {result : Except Failure Unit}

theorem packFrom_eq (hreset : resetOutput fs output = .ok (fs₀, replaced))
    (hcreate : createOutput fs₀ output = .ok (fs₁, handle))
    (hgoes : Goes s source state ⟨fs₁, handle, .ofLevel s.level⟩ turns state' run')
    (hstops : Stops s source state' run' (turns.length + 1) last events result)
    (hlimit : turns.length < source.limit fs₁ state) :
    packFrom s output source state fs = packedAs output replaced turns last events result := by
  obtain ⟨limit, hlimit⟩ : ∃ limit, source.limit fs₁ state = turns.length + (limit + 1) :=
    ⟨source.limit fs₁ state - turns.length - 1, by omega⟩
  have hadded : (countAll (Report.ofOutput output replaced) turns).filesAdded = turns.length := by
    rw [filesAdded_countAll]
    exact Nat.zero_add _
  rw [← hadded] at hstops
  simp only [packFrom, hreset, hcreate, hlimit, hgoes.addAll, hstops.addAll]
  cases result <;> rfl

end Created

section Blocks

theorem completed_blocks (number : Nat) (turns : List Turn) :
    (blocks number turns).filterMap Event.completed? =
      turns.map fun turn => turn.entry.relative := by
  induction turns generalizing number with
  | nil => rfl
  | cons turn rest ih =>
    have hblock : (block number turn.entry.relative turn.pieces).filterMap Event.completed? =
        [turn.entry.relative] := by
      change (turn.pieces.map Event.bytes ++ [Event.completed _]).filterMap Event.completed? = _
      rw [List.filterMap_append, filterMap_completed?_bytes]
      rfl
    rw [blocks, List.filterMap_append, hblock, ih]
    rfl

theorem bytes_blocks (number : Nat) (turns : List Turn) :
    (blocks number turns).filterMap Event.bytes? = turns.flatMap Turn.pieces := by
  induction turns generalizing number with
  | nil => rfl
  | cons turn rest ih =>
    have hblock : (block number turn.entry.relative turn.pieces).filterMap Event.bytes? =
        turn.pieces := by
      change (turn.pieces.map Event.bytes ++ [Event.completed _]).filterMap Event.bytes? = _
      rw [List.filterMap_append, List.filterMap_map]
      exact (List.append_nil _).trans List.filterMap_some
    rw [blocks, List.filterMap_append, hblock, ih, List.flatMap_cons]

/-- The files that a report counts are those whose ends are told. -/
theorem filesAdded_told (output : Path) (replaced : Bool) (turns : List Turn) :
    (countAll (Report.ofOutput output replaced) turns).filesAdded =
      ((blocks 1 turns ++ [Event.finished]).filterMap Event.completed?).length := by
  have hend : [Event.finished].filterMap Event.completed? = [] := rfl
  rw [List.filterMap_append, completed_blocks, hend, List.append_nil, List.length_map]
  exact (filesAdded_countAll _ turns).trans (Nat.zero_add _)

/-- The bytes that a report counts are those that are told. -/
theorem bytesRead_told (h : Goes s source state run turns state' run') (output : Path)
    (replaced : Bool) : (countAll (Report.ofOutput output replaced) turns).bytesRead =
      ((blocks 1 turns ++ [Event.finished]).filterMap Event.bytes?).sum := by
  have hend : [Event.finished].filterMap Event.bytes? = [] := rfl
  rw [List.filterMap_append, bytes_blocks, hend, List.append_nil, h.sum]
  exact (bytesRead_countAll _ turns).trans (Nat.zero_add _)

theorem not_finished_blocks (number : Nat) (turns : List Turn) :
    .finished ∉ blocks number turns := by
  induction turns generalizing number with
  | nil => exact List.not_mem_nil
  | cons turn rest ih => simp [blocks, block, ih]

end Blocks

section Supplied

variable {items rest : List Supplied} {item : Supplied} {later : List Supplied} {number : Nat}
  {events : List Event} {result : Except Failure Unit}

/-- The turns that a run takes are those of its first items, whatever comes behind these. -/
theorem Goes.supplied (h : Goes s suppliedItems items run turns rest run') :
    ∃ front, items = front ++ rest ∧
      front.map Supplied.item = turns.map (fun turn => .ok turn.entry) ∧
      ∀ rest', Goes s suppliedItems (front ++ rest') run turns rest' run' := by
  -- each pull takes the first item, and looks at none behind it
  induction h with
  | stays => exact ⟨[], rfl, rfl, fun rest' => .stays⟩
  | @on items items' rest run next run' fs turn turns pull takes goes ih =>
    obtain ⟨front, rfl, hfront, hother⟩ := ih
    cases items with
    | nil => cases pull
    | cons supplied others =>
      obtain ⟨change, supplied⟩ := supplied
      cases pull
      refine ⟨⟨change, .ok turn.entry⟩ :: front, rfl, ?_, ?_⟩
      · rw [List.map_cons, List.map_cons, hfront]
      · intro rest'
        exact .on rfl takes (hother rest')

/-- A run over given items comes to its end: there are no more turns than items. -/
theorem exists_stops (s : Settings) (items : List Supplied) (run : Run) :
    ∃ turns rest run' last events result, Goes s suppliedItems items run turns rest run' ∧
      Stops s suppliedItems rest run' (turns.length + 1) last events result := by
  obtain ⟨turns, rest, run', hgoes, hends⟩ :=
    exists_goes s suppliedItems (items.length + 1) 1 items run
  rcases hends with hall | ⟨-, last, events, result, hstops⟩
  · obtain ⟨front, hitems, hentries, -⟩ := hgoes.supplied
    have hfront := congrArg List.length hentries
    have hless := congrArg List.length hitems
    rw [List.length_map, List.length_map] at hfront
    rw [List.length_append] at hless
    omega
  · rw [Nat.add_comm 1] at hstops
    exact ⟨turns, rest, run', last, events, result, hgoes, hstops⟩

/-- A run that comes to its end has no items left, or fails with the first of them. -/
theorem Stops.supplied (h : Stops s suppliedItems rest run number last events result) :
    (rest = [] ∧ events = [] ∧ result = .ok ()) ∨
    ∃ item later f, rest = item :: later ∧ result = .error f ∧
      (item.item = .error f ∧ events = [] ∨ ∃ entry pieces, item.item = .ok entry ∧
        Countable pieces ∧ events = .started entry.relative number :: pieces.map .bytes) ∧
      ∀ later', Stops s suppliedItems (item :: later') run number last events result := by
  cases rest with
  | nil =>
    cases h with
    | dry pull => exact .inl ⟨rfl, rfl, rfl⟩
    | fault pull => cases pull
    | entry pull fails => cases pull
  | cons item later =>
    obtain ⟨change, item⟩ := item
    cases h with
    | dry pull => cases pull
    | fault pull =>
      cases pull
      exact .inr ⟨_, later, _, rfl, rfl, .inl ⟨rfl, rfl⟩, fun later' => .fault rfl⟩
    | entry pull fails countable =>
      cases pull
      exact .inr ⟨_, later, _, rfl, rfl, .inr ⟨_, _, rfl, countable, rfl⟩,
        fun later' => .entry rfl fails countable⟩

/-- What an item that fails has told: an entry all of its block but the end, a failure nothing. -/
inductive Unfinished (number : Nat) (f : Failure) : Except Failure Entry → List Event → Prop where
  | fault : Unfinished number f (.error f) []
  | entry {entry : Entry} {pieces : List Nat} {events : List Event} (countable : Countable pieces)
      (block : events ++ [.completed entry.relative] = block number entry.relative pieces) :
      Unfinished number f (.ok entry) events

/-- What a run over given items tells and reports, and how far it has pulled them. -/
inductive Told (s : Settings) (output : Path) (items : List Supplied) (fs : FileSystem)
    (packed : Packed) : Prop where
  /-- What is at the output could not be removed, and the items have no part in what comes of that.
  -/
  | unremoved {f : Failure} (reset : resetOutput fs output = .error f)
      (events : packed.events = []) (result : packed.result = .error f)
      (unpulled : ∀ items', packItems s output items' fs = packed)
  /-- The output could not be created, and again the items have no part in it. -/
  | uncreated {fs₀ : FileSystem} {replaced : Bool} {f : Failure}
      (reset : resetOutput fs output = .ok (fs₀, replaced))
      (create : createOutput fs₀ output = .error f)
      (events : packed.events = []) (result : packed.result = .error f)
      (unpulled : ∀ items', packItems s output items' fs = packed)
  /-- All items are entries and have been packed. -/
  | whole {fs₀ fs₁ : FileSystem} {replaced : Bool} {handle : Handle} {turns : List Turn}
      {run : Run} {report : Report} (reset : resetOutput fs output = .ok (fs₀, replaced))
      (create : createOutput fs₀ output = .ok (fs₁, handle))
      (goes : Goes s suppliedItems items ⟨fs₁, handle, .ofLevel s.level⟩ turns [] run)
      (entries : items.map Supplied.item = turns.map fun turn => .ok turn.entry)
      (events : packed.events = blocks 1 turns ++ [.finished])
      (result : packed.result = .ok report)
      (filesAdded : report.filesAdded = (packed.events.filterMap Event.completed?).length)
      (bytesRead : report.bytesRead = (packed.events.filterMap Event.bytes?).sum)
      (counted : report.filesAdded < UInt64.size → report.bytesRead < UInt64.size →
        ∃ counted, turns.foldlM countChecked (Report.ofOutput output replaced) = .ok counted ∧
          report = { counted with archiveSize := report.archiveSize })
  /-- An item has failed, and those behind it have no part in what comes of that. -/
  | cut {fs₀ fs₁ : FileSystem} {replaced : Bool} {handle : Handle} {turns : List Turn}
      {run last : Run} {front later : List Supplied} {item : Supplied} {unfinished : List Event}
      {f : Failure} (reset : resetOutput fs output = .ok (fs₀, replaced))
      (create : createOutput fs₀ output = .ok (fs₁, handle))
      (goes : Goes s suppliedItems items ⟨fs₁, handle, .ofLevel s.level⟩ turns (item :: later) run)
      (stops : Stops s suppliedItems (item :: later) run (turns.length + 1) last unfinished
        (.error f))
      (split : items = front ++ item :: later)
      (entries : front.map Supplied.item = turns.map fun turn => .ok turn.entry)
      (part : Unfinished (turns.length + 1) f item.item unfinished)
      (events : packed.events = blocks 1 turns ++ unfinished)
      (result : packed.result = .error f)
      (unpulled : ∀ later', packItems s output (front ++ item :: later') fs = packed)

theorem Unfinished.not_finished {f : Failure} {item : Except Failure Entry}
    (h : Unfinished number f item events) : .finished ∉ events := by
  cases h with
  | fault => exact List.not_mem_nil
  | entry countable hblock =>
    intro hmem
    have hblock := hblock ▸ List.mem_append_left _ hmem
    simp [block] at hblock

/-- The end of a run is told once, and only if the run succeeds. -/
theorem Told.finished {output : Path} {fs : FileSystem} {packed : Packed}
    (h : Told s output items fs packed) :
    packed.events.count .finished = if packed.result.isOk then 1 else 0 := by
  have hblocks (turns : List Turn) : (blocks 1 turns).count .finished = 0 :=
    List.count_eq_zero.2 (not_finished_blocks 1 turns)
  cases h with
  | unremoved reset events result =>
    rw [events, result]
    rfl
  | uncreated reset create events result =>
    rw [events, result]
    rfl
  | whole reset create goes entries events result =>
    rw [events, result, List.count_append, hblocks]
    rfl
  | cut reset create goes stops split entries part events result =>
    rw [events, result, List.count_append, hblocks, List.count_eq_zero.2 part.not_finished]
    rfl

/-- Once it has created its output, a run over given items packs them in their order, up to the
first that fails. -/
theorem told_of_created {output : Path} {fs fs₀ fs₁ : FileSystem} {replaced : Bool}
    {handle : Handle} (hreset : resetOutput fs output = .ok (fs₀, replaced))
    (hcreate : createOutput fs₀ output = .ok (fs₁, handle)) :
    Told s output items fs (packItems s output items fs) := by
  obtain ⟨turns, rest, run, last, events, result, hgoes, hstops⟩ :=
    exists_stops s items ⟨fs₁, handle, .ofLevel s.level⟩
  obtain ⟨front, hitems, hentries, hother⟩ := hgoes.supplied
  have hlimit (rest : List Supplied) : turns.length < (front ++ rest).length + 1 := by
    have hfront := congrArg List.length hentries
    rw [List.length_map, List.length_map] at hfront
    rw [List.length_append]
    omega
  have hpacked (rest : List Supplied)
      (hstops : Stops s suppliedItems rest run (turns.length + 1) last events result) :
      packItems s output (front ++ rest) fs = packedAs output replaced turns last events result :=
    packFrom_eq hreset hcreate (hother rest) hstops (hlimit rest)
  have hthis := hpacked rest hstops
  rw [← hitems] at hthis
  rw [hthis]
  rcases hstops.supplied with ⟨rfl, rfl, rfl⟩ | ⟨item, later, f, rfl, rfl, hlast, hlater⟩
  · rw [List.append_nil] at hitems
    rw [← hitems] at hentries
    have hevents : (packedAs output replaced turns last [] (.ok ())).events =
        blocks 1 turns ++ [.finished] := congrArg (· ++ _) (List.append_nil _)
    have hfiles := filesAdded_told output replaced turns
    have hbytes := bytesRead_told hgoes output replaced
    rw [← hevents] at hfiles hbytes
    exact .whole hreset hcreate hgoes hentries hevents rfl hfiles hbytes
      fun hfiles hbytes => ⟨_, foldlM_countChecked hfiles hbytes, rfl⟩
  · refine .cut hreset hcreate hgoes hstops hitems hentries ?_ rfl rfl ?_
    · rcases hlast with ⟨hitem, rfl⟩ | ⟨entry, pieces, hitem, hcountable, rfl⟩
      · rw [hitem]
        exact .fault
      · rw [hitem]
        exact .entry hcountable rfl
    · intro later'
      exact hpacked _ (hlater later')

/-- A run tells of its items in blocks, one for each entry that it packs and numbered from one on;
of the first item that fails it tells a part of a block at most, and of nothing behind it. The end
is told once, and only where all items have been packed; what the report counts is what was told. -/
theorem events_follow_protocol (s : Settings) (output : Path) (items : List Supplied)
    (fs : FileSystem) :
    Told s output items fs (packItems s output items fs) ∧
      (packItems s output items fs).events.count .finished =
        if (packItems s output items fs).result.isOk then 1 else 0 := by
  have htold : Told s output items fs (packItems s output items fs) := by
    cases hreset : resetOutput fs output with
    | error f =>
      have hpacked (items : List Supplied) :
          packItems s output items fs = ⟨fs, [], .error f⟩ := by
        simp only [packItems, packFrom, hreset]
      rw [hpacked]
      exact .unremoved hreset rfl rfl hpacked
    | ok created =>
      obtain ⟨fs₀, replaced⟩ := created
      cases hcreate : createOutput fs₀ output with
      | error f =>
        have hpacked (items : List Supplied) :
            packItems s output items fs = ⟨fs₀, [], .error f⟩ := by
          simp only [packItems, packFrom, hreset, hcreate]
        rw [hpacked]
        exact .uncreated hreset hcreate rfl rfl hpacked
      | ok opened =>
        obtain ⟨fs₁, handle⟩ := opened
        exact told_of_created hreset hcreate
  exact ⟨htold, htold.finished⟩

theorem isOrdinary_interruptedName : isOrdinary "a.txt".toList = true := by
  decide

def interruptedEntry : Entry :=
  ⟨.ofString "/pkg/a.txt", .ofName "a.txt" isOrdinary_interruptedName, 1⟩

/-- Of a file and a directory that cannot be listed, the file has its whole block and the directory
nothing. -/
theorem events_follow_protocol_interrupted :
    let packed := packItems interruptedSettings interruptedSettings.output interruptedItems
      interruptedTree
    packed.events = [.started interruptedEntry.relative 1, .bytes 1,
      .completed interruptedEntry.relative] ∧
    packed.result = .error (.walk (.ofString "/pkg/b") (.system .permissionDenied)) := by
  have hreset : resetOutput interruptedTree interruptedSettings.output =
      .ok (interruptedTree, false) := by cbv
  have hcreate : createOutput interruptedTree interruptedSettings.output =
      .ok (interruptedTreeCreated, ⟨[.ofString "o.zip"], 1⟩) := by cbv
  have hadded : (addFile interruptedSettings ⟨interruptedTreeCreated, ⟨[.ofString "o.zip"], 1⟩,
      .ofLevel interruptedSettings.level⟩ interruptedEntry).result = .ok 1 := by cbv
  have hwritten : (addFile interruptedSettings ⟨interruptedTreeCreated, ⟨[.ofString "o.zip"], 1⟩,
      .ofLevel interruptedSettings.level⟩ interruptedEntry).written = [1] := by cbv
  obtain ⟨htold, -⟩ := events_follow_protocol interruptedSettings interruptedSettings.output
    interruptedItems interruptedTree
  cases htold with
  | unremoved reset => cases hreset.symm.trans reset
  | uncreated reset create =>
    cases hreset.symm.trans reset
    cases hcreate.symm.trans create
  | @whole _ _ _ _ turns _ _ reset create goes entries =>
    -- the second item is no entry
    have hfault : .error (.walk (.ofString "/pkg/b") (.system .permissionDenied)) ∈
        interruptedItems.map Supplied.item := List.mem_cons_of_mem _ (List.mem_singleton_self _)
    rw [entries] at hfault
    obtain ⟨turn, -, hturn⟩ := List.mem_map.1 hfault
    cases hturn
  | @cut _ _ _ _ turns _ _ front later item unfinished f reset create goes stops split entries part
      events result =>
    cases hreset.symm.trans reset
    cases hcreate.symm.trans create
    cases front with
    | nil =>
      -- a run that stops at the first item contradicts that its file can be added
      cases split
      obtain rfl : turns = [] := List.map_eq_nil_iff.1 entries.symm
      cases goes
      cases stops with
      | fault pull => cases pull
      | entry pull fails =>
        cases pull
        cases hadded.symm.trans (congrArg Added.result fails)
    | cons first others =>
      -- the first item has taken its turn, so that the second is the failure
      obtain rfl : others = [] := by
        have hlength := congrArg List.length split
        simp only [interruptedItems, List.length_cons, List.length_nil, List.length_append] at hlength
        exact List.length_eq_zero_iff.1 (by omega)
      cases split
      obtain ⟨⟨entry, content, pieces⟩, rfl, hentry⟩ :=
        List.map_eq_singleton_iff.1 entries.symm
      obtain rfl : interruptedEntry = entry := (Except.ok.inj hentry).symm
      cases goes with
      | on pull takes rest =>
        cases pull
        obtain rfl : [1] = pieces := hwritten.symm.trans (congrArg Added.written takes.added)
        cases part
        exact ⟨events, result⟩

end Supplied

end Pack

end TreeArchive
