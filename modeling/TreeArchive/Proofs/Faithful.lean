import Mathlib
import TreeArchive.FileSystem.Literal
import TreeArchive.Proofs.Copied
import TreeArchive.Proofs.FailedRun

/-!
A run that succeeds is faithful: one member for each entry, with what the entry's file held when its
turn came, and a report that counts them. What happens to other files in the meantime is open.
-/
namespace TreeArchive

open FileSystem

namespace Pack

variable {σ : Type} {source : Source σ} {s : Settings} {state state' : σ} {run : Run}
  {limit : Nat} {fs fs₀ fs₁ : FileSystem} {handle : Handle} {entry : Entry} {items : List Supplied}

/-- The file systems before and after each pull of a run. -/
def pulls (s : Settings) (source : Source σ) : Nat → σ → Run → List (FileSystem × FileSystem)
  | 0, _, _ => []
  | limit + 1, state, run =>
    match source.pull run.fs state with
    | (fs, none) => [(run.fs, fs)]
    | (fs, some (.error _, _)) => [(run.fs, fs)]
    | (fs, some (.ok entry, state)) =>
      let added := addFile s { run with fs := fs } entry
      (run.fs, fs) ::
        match added.result with
        | .error _ => []
        | .ok _ => pulls s source limit state added.run

/-- No pull touches the output, and no entry that is taken leads to it. -/
structure Undisturbed (s : Settings) (source : Source σ) (limit : Nat) (state : σ) (run : Run) :
    Prop where
  untouched : ∀ x ∈ pulls s source limit state run,
    x.2.get? run.output.location = x.1.get? run.output.location
  apart : ∀ t ∈ taken s source limit state run,
    ¬t.1.LeadsTo (t.2.relative.resolve s.root) run.output.location

theorem IsCopy.name {t : FileSystem × Entry} {record : Archive.Record} (h : IsCopy s t record) :
    record.member.name = t.2.relative.text := by
  obtain ⟨mode, content, -, rfl⟩ := h
  rfl

theorem Undisturbed.holds {pulled : Option (Except Failure Entry × σ)}
    (h : Undisturbed s source (limit + 1) state run)
    (hpull : source.pull run.fs state = (fs, pulled)) (hholds : run.fs.Holds run.output) :
    fs.Holds run.output := by
  apply hholds.of_get?_eq
  apply h.untouched (run.fs, fs)
  unfold pulls
  rw [hpull]
  rcases pulled with _ | ⟨_ | _, _⟩
  · exact List.mem_singleton_self _
  · exact List.mem_singleton_self _
  · exact List.mem_cons_self

theorem mem_taken_of_pull (hpull : source.pull run.fs state = (fs, some (.ok entry, state'))) :
    (fs, entry) ∈ taken s source (limit + 1) state run := by
  unfold taken
  simp only [hpull]
  split
  · exact List.mem_singleton_self _
  · exact List.mem_cons_self

theorem mem_taken_of_rest {read : Nat} {t : FileSystem × Entry}
    (hpull : source.pull run.fs state = (fs, some (.ok entry, state')))
    (hadded : (addFile s { run with fs := fs } entry).result = .ok read)
    (ht : t ∈ taken s source limit state' (addFile s { run with fs := fs } entry).run) :
    t ∈ taken s source (limit + 1) state run := by
  simp only [taken, hpull, hadded]
  exact List.mem_cons_of_mem _ ht

theorem Undisturbed.rest {read : Nat} (h : Undisturbed s source (limit + 1) state run)
    (hpull : source.pull run.fs state = (fs, some (.ok entry, state')))
    (hadded : (addFile s { run with fs := fs } entry).result = .ok read) :
    Undisturbed s source limit state' (addFile s { run with fs := fs } entry).run := by
  obtain ⟨houtput, -⟩ := addFile_frame s { run with fs := fs } entry
  constructor
  · intro x hx
    rw [houtput]
    apply h.untouched x
    simp only [pulls, hpull, hadded]
    exact List.mem_cons_of_mem _ hx
  · intro t ht
    rw [houtput]
    exact h.apart t (mem_taken_of_rest hpull hadded ht)

/-- One warning for each entry whose listed size is not that of its member. -/
def sizeWarnings (entries : List (FileSystem × Entry)) (records : List Archive.Record) :
    List String :=
  (entries.zip records).filterMap fun (t, record) =>
    if record.member.content.size = t.2.size then none
    else some (warning t.2 record.member.content.size)

/-- A report that counts some more entries and their members. -/
def tally (report : Report) (entries : List (FileSystem × Entry)) (records : List Archive.Record) :
    Report :=
  { report with
    filesAdded := report.filesAdded + records.length
    bytesRead := report.bytesRead + (records.map fun record => record.member.content.size).sum
    warnings := report.warnings ++ sizeWarnings entries records }

/-- A run over given items when it has created its output. -/
def startedRun (s : Settings) (fs₁ : FileSystem) (handle : Handle) : Run :=
  ⟨fs₁, handle, .ofLevel s.level⟩

/-- The entries that a run takes from its items, each with the file system at that moment. -/
def takenFromItems (s : Settings) (items : List Supplied) (fs₁ : FileSystem) (handle : Handle) :
    List (FileSystem × Entry) :=
  taken s suppliedItems (items.length + 1) items (startedRun s fs₁ handle)

theorem isOrdinary_rewritten : isOrdinary "a.txt".toList = true := rfl

def rewrittenEntry : Entry :=
  ⟨.ofString "/pkg/a.txt", .ofName "a.txt" isOrdinary_rewritten, 2⟩

end Pack

end TreeArchive
