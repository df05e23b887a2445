import Mathlib
import TreeArchive.Proofs.Run
import TreeArchive.Session

/-!
What a call of the program comes to, put apart from how it is told: the outcome of the run or of the
listing, the numbers that it adds up, the names that are shown on the way, and the one place where
an error is written.
-/
namespace TreeArchive

open CommandLine Console

namespace Checked

/-- Some partial sum does not fit exactly if the sum does not. -/
theorem foldlM_add {a : Nat} (h : a < UInt64.size) (counts : List Nat) :
    counts.foldlM add a = add a counts.sum := by
  induction counts generalizing a with
  | nil => exact (add_of_lt (b := 0) h).symm
  | cons count rest ih =>
    rw [List.foldlM_cons, List.sum_cons]
    by_cases hfits : a + count < UInt64.size
    · rw [add_of_lt hfits]
      change rest.foldlM add (a + count) = _
      rw [ih hfits, add, add, Nat.add_assoc]
    · have hsum : UInt64.size ≤ a + (count + rest.sum) := by omega
      rw [add_of_le (Nat.not_lt.1 hfits), add_of_le hsum]
      rfl

theorem sum_of_lt {counts : List Nat} (h : counts.sum < UInt64.size) :
    sum counts = .ok counts.sum := by
  rw [sum, foldlM_add (by decide), add_of_lt (by omega), Nat.zero_add]

theorem sum_of_le {counts : List Nat} (h : UInt64.size ≤ counts.sum) :
    sum counts = .error .additionOverflow := by
  rw [sum, foldlM_add (by decide), add_of_le (by omega)]

end Checked

/-- The names of the entries that some events start, in order. -/
def startedNames (events : List Event) : List String :=
  (events.filterMap Event.started?).map RelativePath.text

/-- The bytes that some events count together. -/
def countedBytes (events : List Event) : Nat :=
  (events.filterMap Event.bytes?).sum

theorem startedNames_append (events rest : List Event) :
    startedNames (events ++ rest) = startedNames events ++ startedNames rest := by
  rw [startedNames, List.filterMap_append, List.map_append]
  rfl

theorem countedBytes_append (events rest : List Event) :
    countedBytes (events ++ rest) = countedBytes events + countedBytes rest := by
  rw [countedBytes, List.filterMap_append, List.sum_append]
  rfl

theorem countedBytes_bytes (counts : List Nat) : countedBytes (counts.map .bytes) = counts.sum := by
  rw [countedBytes, List.filterMap_map]
  exact congrArg List.sum List.filterMap_some

namespace Console

namespace Progress

variable {p : Progress} {events : List Event}

theorem style_handle (p : Progress) (event : Event) : (p.handle event).style = p.style := by
  cases event with
  | bytes count =>
    rw [handle]
    split <;> rfl
  | _ => rfl

theorem names_handle (p : Progress) (event : Event) :
    (p.handle event).names = p.names ++ startedNames [event] := by
  cases event with
  | started name number => rfl
  | bytes count =>
    rw [handle]
    split <;> exact (List.append_nil _).symm
  | _ => exact (List.append_nil _).symm

theorem stdout_handle (p : Progress) (event : Event) :
    (p.handle event).stdout.toList = p.stdout.toList ++
      (startedNames [event]).flatMap fun name => (p.style.entryOutput name).stdout.toList := by
  cases event with
  | started name number => simp [handle, draw, startedNames, Event.started?]
  | bytes count =>
    rw [handle]
    split <;> exact (List.append_nil _).symm
  | _ => exact (List.append_nil _).symm

/-- As long as the bytes can be added, an event adds its own and leaves no panic. -/
theorem bytes_handle {event : Event} (hpanic : p.panic? = none)
    (h : p.bytes + countedBytes [event] < UInt64.size) :
    (p.handle event).bytes = p.bytes + countedBytes [event] ∧ (p.handle event).panic? = none := by
  cases event with
  | bytes count =>
    have hcount : countedBytes [.bytes count] = count := Nat.add_zero count
    rw [hcount] at h ⊢
    rw [handle, Checked.add_of_lt h]
    exact ⟨rfl, hpanic⟩
  | _ => exact ⟨rfl, hpanic⟩

theorem panic?_handle {event : Event} (hbytes : p.bytes < UInt64.size)
    (h : UInt64.size ≤ p.bytes + countedBytes [event]) :
    (p.handle event).panic? = some .additionOverflow := by
  cases event with
  | bytes count =>
    have hcount : countedBytes [.bytes count] = count := Nat.add_zero count
    rw [hcount] at h
    rw [handle, Checked.add_of_le h]
  | _ =>
    have hnone : UInt64.size ≤ p.bytes := h
    omega

theorem handleAll_of_panic {panic : Panic} (h : p.panic? = some panic) (events : List Event) :
    p.handleAll events = p := by
  cases events with
  | nil => rfl
  | cons event rest => rw [handleAll, if_pos (by simp [h])]

theorem handleAll_cons (h : p.panic? = none) (event : Event) (rest : List Event) :
    p.handleAll (event :: rest) = (p.handle event).handleAll rest := by
  rw [handleAll, if_neg (by simp [h])]

/-- As long as the bytes can be added, every name that starts is noted and, if names are shown at
all, shown at once. -/
theorem handleAll_eq (hpanic : p.panic? = none)
    (h : p.bytes + countedBytes events < UInt64.size) :
    (p.handleAll events).panic? = none ∧
      (p.handleAll events).names = p.names ++ startedNames events ∧
      (p.handleAll events).stdout.toList = p.stdout.toList ++
        (startedNames events).flatMap fun name => (p.style.entryOutput name).stdout.toList := by
  -- what the events up to each one have added fits, so that none of them panics
  induction events generalizing p with
  | nil => simpa [handleAll, startedNames] using hpanic
  | cons event rest ih =>
    have hstarted : startedNames (event :: rest) = startedNames [event] ++ startedNames rest :=
      startedNames_append [event] rest
    rw [← List.singleton_append, countedBytes_append] at h
    have hfits : p.bytes + countedBytes [event] < UInt64.size := by omega
    obtain ⟨hbytes, hnone⟩ := bytes_handle hpanic hfits
    obtain ⟨hlast, hnames, hstdout⟩ := ih hnone (by omega)
    rw [handleAll_cons hpanic, hnames, hstdout, names_handle, stdout_handle, style_handle,
      hstarted, List.flatMap_append, List.append_assoc, List.append_assoc]
    exact ⟨hlast, rfl, rfl⟩

theorem panic?_handleAll (hpanic : p.panic? = none) (hbytes : p.bytes < UInt64.size)
    (h : UInt64.size ≤ p.bytes + countedBytes events) :
    (p.handleAll events).panic? = some .additionOverflow := by
  induction events generalizing p with
  | nil =>
    have hnone : UInt64.size ≤ p.bytes := h
    omega
  | cons event rest ih =>
    rw [← List.singleton_append, countedBytes_append] at h
    rw [handleAll_cons hpanic]
    by_cases hfits : p.bytes + countedBytes [event] < UInt64.size
    · obtain ⟨hadded, hnone⟩ := bytes_handle hpanic hfits
      exact ih hnone (by omega) (by omega)
    · -- nothing is handled behind the event that panics
      have hthis := panic?_handle hbytes (Nat.not_lt.1 hfits)
      rwa [handleAll_of_panic hthis]

end Progress

namespace Style

variable {style : Style} {entries : List Entry}

/-- The sizes of a listing are added where their sum is told. -/
def addedSizes (style : Style) (entries : List Entry) : Nat :=
  if style.json = false ∧ style.quiet = true then 0 else (entries.map Entry.size).sum

theorem totalSize_of_lt (h : (entries.map Entry.size).sum < UInt64.size) :
    totalSize entries = .ok (entries.map Entry.size).sum :=
  Checked.sum_of_lt h

theorem totalSize_of_le (h : UInt64.size ≤ (entries.map Entry.size).sum) :
    totalSize entries = .error .additionOverflow :=
  Checked.sum_of_le h

theorem dryRunOutput_of_quiet (hjson : style.json = false) (hquiet : style.quiet = true)
    (output : Path) (entries : List Entry) :
    style.dryRunOutput output entries = ⟨.empty, none⟩ := by
  rw [dryRunOutput, if_neg (by simp [hjson]), if_pos hquiet]

theorem dryRunOutput_of_json (hjson : style.json = true)
    (h : (entries.map Entry.size).sum < UInt64.size) (output : Path) :
    style.dryRunOutput output entries =
      ⟨⟨document (.ok (dryRunJson output entries (entries.map Entry.size).sum)), ""⟩, none⟩ := by
  rw [dryRunOutput, if_pos hjson, totalSize_of_lt h]

theorem dryRunOutput_of_plain (hjson : style.json = false) (hquiet : style.quiet = false)
    (h : (entries.map Entry.size).sum < UInt64.size) (output : Path) :
    style.dryRunOutput output entries =
      ⟨⟨asLines (style.dryRunLines entries) ++ asLines (style.dryRunSummary output entries.length
        (entries.map Entry.size).sum), ""⟩, none⟩ := by
  rw [dryRunOutput, if_neg (by simp [hjson]), if_neg (by simp [hquiet]), totalSize_of_lt h]

theorem dryRunOutput_of_json_of_le (hjson : style.json = true)
    (h : UInt64.size ≤ (entries.map Entry.size).sum) (output : Path) :
    style.dryRunOutput output entries = ⟨.empty, some .additionOverflow⟩ := by
  rw [dryRunOutput, if_pos hjson, totalSize_of_le h]

theorem dryRunOutput_of_plain_of_le (hjson : style.json = false) (hquiet : style.quiet = false)
    (h : UInt64.size ≤ (entries.map Entry.size).sum) (output : Path) :
    style.dryRunOutput output entries =
      ⟨⟨asLines (style.dryRunLines entries), ""⟩, some .additionOverflow⟩ := by
  rw [dryRunOutput, if_neg (by simp [hjson]), if_neg (by simp [hquiet]), totalSize_of_le h]

/-- A listing panics exactly if the sizes that it adds do not fit. -/
theorem panic?_dryRunOutput (style : Style) (output : Path) (entries : List Entry) :
    (style.dryRunOutput output entries).panic? =
      if style.addedSizes entries < UInt64.size then none else some .additionOverflow := by
  have hnone : 0 < UInt64.size := by decide
  by_cases hfits : (entries.map Entry.size).sum < UInt64.size
  · have htotal := totalSize_of_lt hfits
    -- in silence nothing is added, and that fits
    cases hjson : style.json <;> cases hquiet : style.quiet <;>
      simp [dryRunOutput, addedSizes, hjson, hquiet, htotal, hfits, hnone]
  · have htotal := totalSize_of_le (Nat.not_lt.1 hfits)
    cases hjson : style.json <;> cases hquiet : style.quiet <;>
      simp [dryRunOutput, addedSizes, hjson, hquiet, htotal, hfits, hnone]

end Style

end Console

namespace Session

variable {a : Arguments} {fs : FileSystem} {f : Failure} {entries : List Entry} {report : Report}

/-- What becomes of a call. -/
inductive Outcome where
  | done
  | failed (failure : Failure)
  | panicked (panic : Panic)
deriving DecidableEq

def Outcome.exitStatus : Outcome → Nat
  | done => 0
  | failed _ => 1
  | panicked _ => 101

/-- The run or the listing that a command line asks for succeeds, or it fails with this. -/
def result (a : Arguments) (fs : FileSystem) : Except Failure Unit :=
  let s := a.settings fs.workingDirectory.toPath
  if a.has .dryRun then (Pack.dryRun s fs).map fun _ => ()
  else (Pack.packTree s fs).result.map fun _ => ()

/-- What a call adds up: the sizes of its listing, or the bytes that it reads. -/
def added (a : Arguments) (fs : FileSystem) : Nat :=
  let s := a.settings fs.workingDirectory.toPath
  if a.has .dryRun then
    match Pack.dryRun s fs with
    | .ok entries => (styleOf a false).addedSizes entries
    | .error _ => 0
  else countedBytes (Pack.packTree s fs).events

/-- A call panics if what it adds up is no number of 64 bits. -/
def outcome (a : Arguments) (fs : FileSystem) : Outcome :=
  if added a fs < UInt64.size then
    match result a fs with
    | .ok () => .done
    | .error failure => .failed failure
  else .panicked .additionOverflow

theorem outcome_eq_done_iff :
    outcome a fs = .done ↔ added a fs < UInt64.size ∧ result a fs = .ok () := by
  unfold outcome
  split
  · cases hresult : result a fs <;> simp [*]
  · simp [*]

theorem outcome_eq_failed_iff :
    outcome a fs = .failed f ↔ added a fs < UInt64.size ∧ result a fs = .error f := by
  unfold outcome
  split
  · cases hresult : result a fs <;> simp [*]
  · simp [*]

theorem map_eq_error {α β : Type} {x : Except Failure α} {g : α → β} :
    x.map g = .error f ↔ x = .error f := by
  cases x <;> simp [Except.map]

theorem exists_of_map_eq_ok {α β : Type} {x : Except Failure α} {g : α → β} {b : β}
    (h : x.map g = .ok b) : ∃ a, x = .ok a := by
  cases x with
  | ok a => exact ⟨a, rfl⟩
  | error f => cases h

theorem result_of_dryRun (hdry : a.has .dryRun = true) : result a fs =
    (Pack.dryRun (a.settings fs.workingDirectory.toPath) fs).map fun _ => () :=
  if_pos hdry

theorem result_of_pack (hdry : a.has .dryRun = false) : result a fs =
    (Pack.packTree (a.settings fs.workingDirectory.toPath) fs).result.map fun _ => () :=
  if_neg (by simp [hdry])

theorem added_of_listed (hdry : a.has .dryRun = true)
    (h : Pack.dryRun (a.settings fs.workingDirectory.toPath) fs = .ok entries) (colors : Bool) :
    added a fs = (styleOf a colors).addedSizes entries := by
  simp only [added, hdry, if_true, h]
  rfl

theorem added_of_pack (hdry : a.has .dryRun = false) : added a fs =
    countedBytes (Pack.packTree (a.settings fs.workingDirectory.toPath) fs).events := by
  simp only [added, hdry, Bool.false_eq_true, if_false]

/-- A listing that fails has added nothing. -/
theorem outcome_of_unlisted (hdry : a.has .dryRun = true)
    (h : Pack.dryRun (a.settings fs.workingDirectory.toPath) fs = .error f) :
    outcome a fs = .failed f := by
  have hadded : added a fs = 0 := by
    simp only [added, hdry, if_true, h]
  rw [outcome_eq_failed_iff, hadded, result_of_dryRun hdry, h]
  exact ⟨by decide, rfl⟩

theorem outcome_of_listed (hdry : a.has .dryRun = true)
    (h : Pack.dryRun (a.settings fs.workingDirectory.toPath) fs = .ok entries)
    (hfits : (entries.map Entry.size).sum < UInt64.size) : outcome a fs = .done := by
  rw [outcome_eq_done_iff, added_of_listed hdry h false, Style.addedSizes, result_of_dryRun hdry, h]
  refine ⟨?_, rfl⟩
  split
  · decide
  · exact hfits

/-- The files behind a call: a listing leaves them as they are. -/
def filesAfter (a : Arguments) (fs : FileSystem) : FileSystem :=
  if a.has .dryRun then fs else (Pack.packTree (a.settings fs.workingDirectory.toPath) fs).fs

/-- How the run of a call is followed. -/
def progress (a : Arguments) (colors : Bool) (fs : FileSystem) : Progress :=
  (Progress.ofStyle (styleOf a colors)).handleAll
    (Pack.packTree (a.settings fs.workingDirectory.toPath) fs).events

/-- What a spinner draws in the course of a call; a listing has none. -/
def spun (a : Arguments) (around : Surroundings) (fs : FileSystem) : String :=
  if a.has .dryRun then ""
  else around.drawn (styleOf a around.colors) (progress a around.colors fs).ended

/-- What a call writes on the way to its end. -/
def before (a : Arguments) (around : Surroundings) (fs : FileSystem) : Output :=
  ⟨if a.has .dryRun then "" else (progress a around.colors fs).stdout, spun a around fs⟩

theorem spun_of_none {around : Surroundings} (h : around.draw? = none) : spun a around fs = "" := by
  unfold spun Surroundings.drawn
  rw [h]
  split <;> rfl

theorem before_of_dryRun (hdry : a.has .dryRun = true) (around : Surroundings) :
    before a around fs = .empty := by
  simp only [before, spun, hdry, if_true]
  rfl

theorem before_of_pack (hdry : a.has .dryRun = false) (around : Surroundings) :
    before a around fs = ⟨(progress a around.colors fs).stdout,
      around.drawn (styleOf a around.colors) (progress a around.colors fs).ended⟩ := by
  simp only [before, spun, hdry, Bool.false_eq_true, if_false]

/-- A run that panics nowhere has noted the names of all entries that it started. -/
theorem progress_eq (hdry : a.has .dryRun = false) (hfits : added a fs < UInt64.size)
    (colors : Bool) :
    let events := (Pack.packTree (a.settings fs.workingDirectory.toPath) fs).events
    (progress a colors fs).panic? = none ∧
      (progress a colors fs).names = startedNames events ∧
      (progress a colors fs).stdout.toList = (startedNames events).flatMap fun name =>
        ((styleOf a colors).entryOutput name).stdout.toList := by
  rw [added_of_pack hdry] at hfits
  have hbytes : (Progress.ofStyle (styleOf a colors)).bytes + countedBytes
      (Pack.packTree (a.settings fs.workingDirectory.toPath) fs).events < UInt64.size := by
    rwa [← Nat.zero_add (countedBytes _)] at hfits
  exact Progress.handleAll_eq rfl hbytes

/-- What fails is told once, behind all that was written before. -/
theorem ofArguments_of_failed (h : outcome a fs = .failed f) (around : Surroundings) :
    ofArguments a around fs =
      failed (styleOf a around.colors) (a.settings fs.workingDirectory.toPath) f
        (before a around fs) (filesAfter a fs) := by
  obtain ⟨hfits, hresult⟩ := outcome_eq_failed_iff.1 h
  cases hdry : a.has .dryRun with
  | true =>
    rw [result_of_dryRun hdry, map_eq_error] at hresult
    rw [before_of_dryRun hdry]
    simp only [ofArguments, filesAfter, hdry, if_true, dryRun, hresult]
  | false =>
    rw [result_of_pack hdry, map_eq_error] at hresult
    obtain ⟨hpanic, -⟩ := progress_eq hdry hfits around.colors
    rw [progress] at hpanic
    rw [before_of_pack hdry]
    simp only [ofArguments, filesAfter, hdry, Bool.false_eq_true, if_false, pack, hpanic, hresult]
    rfl

theorem ofArguments_of_listed (hdry : a.has .dryRun = true)
    (h : Pack.dryRun (a.settings fs.workingDirectory.toPath) fs = .ok entries)
    (hfits : added a fs < UInt64.size) (around : Surroundings) :
    ofArguments a around fs =
      ⟨0, fun _ => ((styleOf a around.colors).dryRunOutput
        (a.settings fs.workingDirectory.toPath).output entries).output, fs⟩ := by
  have hpanic := (styleOf a around.colors).panic?_dryRunOutput
    (a.settings fs.workingDirectory.toPath).output entries
  rw [added_of_listed hdry h around.colors] at hfits
  rw [if_pos hfits] at hpanic
  simp only [ofArguments, hdry, if_true, dryRun, h, hpanic]

theorem ofArguments_of_packed (hdry : a.has .dryRun = false)
    (h : (Pack.packTree (a.settings fs.workingDirectory.toPath) fs).result = .ok report)
    (hfits : added a fs < UInt64.size) (around : Surroundings) :
    let packed := Pack.packTree (a.settings fs.workingDirectory.toPath) fs
    ofArguments a around fs =
      ⟨0, fun taken => (before a around fs).append
        ((styleOf a around.colors).reportOutput { report with duration := taken }
          (startedNames packed.events)), packed.fs⟩ := by
  obtain ⟨hpanic, hnames, -⟩ := progress_eq hdry hfits around.colors
  rw [before_of_pack hdry]
  rw [progress] at hpanic hnames
  simp only [ofArguments, hdry, Bool.false_eq_true, if_false, pack, hpanic, h, hnames]
  rfl

/-- A call succeeds by listing entries or by packing them. -/
theorem exists_of_result_ok (h : result a fs = .ok ()) :
    (a.has .dryRun = true ∧
      ∃ entries, Pack.dryRun (a.settings fs.workingDirectory.toPath) fs = .ok entries) ∨
    (a.has .dryRun = false ∧ ∃ report,
      (Pack.packTree (a.settings fs.workingDirectory.toPath) fs).result = .ok report) := by
  cases hdry : a.has .dryRun with
  | true =>
    rw [result_of_dryRun hdry] at h
    exact .inl ⟨rfl, exists_of_map_eq_ok h⟩
  | false =>
    rw [result_of_pack hdry] at h
    exact .inr ⟨rfl, exists_of_map_eq_ok h⟩

theorem exitStatus_of_panicked {panic : Panic} (h : outcome a fs = .panicked panic)
    (around : Surroundings) : (ofArguments a around fs).exitStatus = 101 := by
  have hadded : UInt64.size ≤ added a fs := by
    unfold outcome at h
    split at h
    · split at h <;> cases h
    · exact Nat.not_lt.1 ‹_›
  cases hdry : a.has .dryRun with
  | true =>
    cases hlisted : Pack.dryRun (a.settings fs.workingDirectory.toPath) fs with
    | error f =>
      rw [outcome_of_unlisted hdry hlisted] at h
      cases h
    | ok entries =>
      have hpanic := (styleOf a around.colors).panic?_dryRunOutput
        (a.settings fs.workingDirectory.toPath).output entries
      rw [added_of_listed hdry hlisted around.colors] at hadded
      rw [if_neg (Nat.not_lt.2 hadded)] at hpanic
      simp only [ofArguments, hdry, if_true, dryRun, hlisted, hpanic]
      rfl
  | false =>
    have hpanic : (progress a around.colors fs).panic? = some .additionOverflow := by
      rw [added_of_pack hdry, ← Nat.zero_add (countedBytes _)] at hadded
      exact Progress.panic?_handleAll rfl (by decide : 0 < UInt64.size) hadded
    rw [progress] at hpanic
    simp only [ofArguments, hdry, Bool.false_eq_true, if_false, pack, hpanic]
    rfl

/-- The status with which a call ends tells what has become of it. -/
theorem exitStatus_eq (a : Arguments) (around : Surroundings) (fs : FileSystem) :
    (ofArguments a around fs).exitStatus = (outcome a fs).exitStatus := by
  cases houtcome : outcome a fs with
  | done =>
    obtain ⟨hfits, hresult⟩ := outcome_eq_done_iff.1 houtcome
    rcases exists_of_result_ok hresult with ⟨hdry, entries, hok⟩ | ⟨hdry, report, hok⟩
    · rw [ofArguments_of_listed hdry hok hfits]
      rfl
    · rw [ofArguments_of_packed hdry hok hfits]
      rfl
  | failed f =>
    rw [ofArguments_of_failed houtcome]
    rfl
  | panicked panic => exact exitStatus_of_panicked houtcome around

theorem exitStatus_iff (a : Arguments) (around : Surroundings) (fs : FileSystem) :
    ((ofArguments a around fs).exitStatus = 0 ↔ outcome a fs = .done) ∧
      ((ofArguments a around fs).exitStatus = 1 ↔ ∃ f, outcome a fs = .failed f) := by
  rw [exitStatus_eq]
  cases outcome a fs <;> simp [Outcome.exitStatus]

end Session

end TreeArchive
