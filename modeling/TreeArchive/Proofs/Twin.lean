import TreeArchive.Proofs.EventProtocol
import TreeArchive.Proofs.Faithful
import TreeArchive.Proofs.Veiled

/-!
Two runs side by side that differ in the sizes that are listed for their entries. The header of a
member is chosen by the listed size and its content is read afterwards, so a file that has grown is
lost where the header has no room for it. An entry keeps the two runs alike unless its file has
outgrown plain headers and only one of the two sizes asks for another one.
-/
namespace TreeArchive

open FileSystem

/-- The entry as it would be listed with another size. -/
def Entry.resized (entry : Entry) (size : Nat) : Entry :=
  { entry with size := size }

/-- The member with a plain header. -/
def Member.plain (m : Member) : Member :=
  { m with large := false }

namespace Archive

def Record.plain (r : Record) : Record :=
  { r with member := r.member.plain }

namespace Writer

variable {w w' : Writer} {m m' : Member} {content : Content} {limit written : Nat}
  {chunks : List Nat} {f : Failure}

/-- Why a member is given up that its header has no room for. -/
def outgrown : Failure :=
  .io (.custom "Large file option has not been set")

/-- The writer when a member has been started. -/
def begun (w : Writer) (m : Member) : Writer :=
  { w.complete with current := some m }

theorem completed_begun (w : Writer) (m : Member) :
    (w.begun m).completed = w.completed ++ [.ofMember w.level m] := rfl

theorem completed_abort_begun (w : Writer) (m : Member) :
    (w.begun m).abort.completed = w.completed := by
  simp [completed, last, abort, begun, complete]

theorem sum_le_of_fitting (hwritten : written ≤ limit)
    (h : (fitting limit written chunks).2 = true) :
    written + chunks.sum ≤ limit := by
  induction chunks generalizing written with
  | nil => exact hwritten
  | cons chunk rest ih =>
    rw [fitting] at h
    split at h
    · cases h
    · rename_i hchunk
      have hrest := ih (by omega) h
      rw [List.sum_cons]
      omega

/-- A member takes a content that its header has room for. -/
theorem write_begun (hfits : m.large = true ∨ content.size ≤ plainLimit) (buffer : Nat) :
    (w.begun m).write buffer content =
      (Content.chunks buffer content.size, .ok (w.begun { m with content := content })) := by
  obtain ⟨taken, next, hwrite⟩ := exists_of_write (w := w.begun m) rfl hfits buffer
  rw [hwrite, chunks_of_write hwrite, eq_of_write rfl hwrite]
  rfl

theorem write_begun_outgrown (hlarge : m.large = false) (hsize : plainLimit < content.size)
    (buffer : Nat) : (w.begun m).write buffer content =
      ((fitting plainLimit 0 (Content.chunks buffer content.size)).1, .error outgrown) := by
  cases hfit : fitting plainLimit 0 (Content.chunks buffer content.size) with
  | mk taken complete =>
    have hcut : complete = false := by
      rw [← Bool.not_eq_true]
      rintro rfl
      -- all pieces would fit, and they are as long as the content
      have hall := sum_le_of_fitting (Nat.zero_le plainLimit) (congrArg Prod.snd hfit)
      rw [Content.sum_chunks] at hall
      omega
    subst hcut
    simp only [write, begun, hlarge, hfit]
    rfl

/-- Two writers at one level, whose members differ in nothing but their headers. -/
structure SamePlain (w w' : Writer) : Prop where
  level : w'.level = w.level
  completed : w'.completed.map Record.plain = w.completed.map Record.plain

theorem SamePlain.names (h : SamePlain w w') : w'.names = w.names := by
  have hplain (records : List Record) :
      (records.map Record.plain).map (fun record => record.member.name) =
        records.map fun record => record.member.name := by
    rw [List.map_map]
    rfl
  rw [Writer.names, Writer.names, ← hplain, h.completed, hplain]

theorem SamePlain.begun (h : SamePlain w w') (hm : m'.plain = m.plain) :
    SamePlain (w.begun m) (w'.begun m') := by
  refine ⟨h.level, ?_⟩
  have hrecord : (Record.ofMember w'.level m').plain = (Record.ofMember w.level m).plain := by
    calc
      (Record.ofMember w'.level m').plain = Record.ofMember w'.level m'.plain := rfl
      _ = Record.ofMember w.level m.plain := by rw [h.level, hm]
      _ = (Record.ofMember w.level m).plain := rfl
  rw [completed_begun, completed_begun, List.map_append, List.map_append, h.completed,
    List.map_singleton, List.map_singleton, hrecord]

theorem SamePlain.abort_begun (h : SamePlain w w') (m m' : Member) :
    SamePlain (w.begun m).abort (w'.begun m').abort := by
  refine ⟨h.level, ?_⟩
  rw [completed_abort_begun, completed_abort_begun, h.completed]

/-- A member that one of the writers refuses, the other refuses for the same reason. -/
theorem SamePlain.start_error (h : SamePlain w w') (hname : m'.name = m.name)
    (hstart : w.start m = .error f) : w'.start m' = .error f := by
  have hnames (w : Writer) (name : String) :
      (w.complete.records.any (·.member.name == name)) = w.names.any (· == name) := by
    rw [Writer.names, List.any_map]
    rfl
  have hany : w'.complete.records.any (·.member.name == m'.name) =
      w.complete.records.any (·.member.name == m.name) := by
    rw [hnames, hnames, h.names, hname]
  unfold start at hstart ⊢
  rw [h.level]
  split at hstart
  · rename_i hlevel
    rw [if_pos hlevel, hstart]
  · rename_i hlevel
    rw [if_neg hlevel]
    dsimp only at hstart ⊢
    rw [hany, hname]
    split at hstart
    · rename_i hold
      rw [if_pos hold, hstart]
    · cases hstart

end Writer

end Archive

namespace Pack

open Archive.Writer (outgrown)

variable {s : Settings} {run run' : Run} {entry : Entry} {mode size : Nat} {content : Content}

section Readable

variable (hholds : run.fs.Holds run.output)
  (hapart : ¬run.fs.LeadsTo (entry.relative.resolve s.root) run.output.location)
  (hlevel : Archive.Writer.knowsLevel run.writer.level = true)
  (hfresh : entry.relative.text ∉ run.writer.names)
include hholds hapart hlevel hfresh

/-- A member is begun for an entry that can be opened, and its file then reads as before. -/
theorem begun_of_opened {readable : Except IoError Content}
    (hopen : run.fs.openFile (entry.relative.resolve s.root) = .ok ⟨mode, readable⟩) :
    run.writer.start (memberOf s entry mode) = .ok (run.writer.begun (memberOf s entry mode)) ∧
      ((run.started (run.writer.begun (memberOf s entry mode))).fs.openFile
        (entry.relative.resolve s.root) >>= Opened.read) = readable := by
  refine ⟨Archive.Writer.start_eq_ok.2 ⟨hlevel, hfresh, rfl⟩, ?_⟩
  rw [Run.started, openFile_store hholds hapart, hopen]
  rfl

/-- The member is kept if its header has room for what the file holds. -/
theorem addFile_kept (hreads : Reads s (run.fs, entry) mode content)
    (hfits : Archive.plainLimit ≤ entry.size ∨ content.size ≤ Archive.plainLimit) :
    let m := memberOf s entry mode
    addFile s run entry = ⟨{ run.started (run.writer.begun m) with
      writer := run.writer.begun { m with content := content } },
        Content.chunks bufferSize content.size, .ok content.size⟩ := by
  obtain ⟨hstart, hread⟩ := begun_of_opened hholds hapart hlevel hfresh hreads
  apply addFile_written hreads hstart hread
  exact Archive.Writer.write_begun (hfits.imp_left decide_eq_true) bufferSize

/-- The member is given up if its file has outgrown the header that the listed size asks for. -/
theorem addFile_given_up (hreads : Reads s (run.fs, entry) mode content)
    (hlisted : entry.size < Archive.plainLimit) (hgrown : Archive.plainLimit < content.size) :
    let m := memberOf s entry mode
    let chunks := Content.chunks bufferSize content.size
    addFile s run entry = ⟨{ run.started (run.writer.begun m) with
      writer := (run.writer.begun m).abort },
        (Archive.Writer.fitting Archive.plainLimit 0 chunks).1, .error outgrown⟩ := by
  obtain ⟨hstart, hread⟩ := begun_of_opened hholds hapart hlevel hfresh hreads
  apply addFile_outgrown hreads hstart hread
  exact Archive.Writer.write_begun_outgrown (decide_eq_false (by omega)) hgrown bufferSize

end Readable

/-- Nothing is read from a listed size but which header it asks for. -/
theorem addFile_resized (s : Settings) (run : Run) (entry : Entry)
    (hside : Archive.plainLimit ≤ size ↔ Archive.plainLimit ≤ entry.size) :
    addFile s run (entry.resized size) = addFile s run entry := by
  have hmember (mode : Nat) : memberOf s (entry.resized size) mode = memberOf s entry mode := by
    simp only [memberOf, Entry.resized, hside]
  have hrelative : (entry.resized size).relative = entry.relative := rfl
  simp only [addFile, hmember, hrelative]

/-- Two runs side by side: one output, file systems that are the same but for what it holds, and
archives that are the same but for the headers of the members. -/
structure Twin (run run' : Run) : Prop where
  output : run'.output = run.output
  veiled : run'.fs.veiled run.output = run.fs.veiled run.output
  holds : run.fs.Holds run.output
  writer : run.writer.SamePlain run'.writer

/-- Both runs have started a member, whatever has become of it. -/
theorem Twin.started (h : Twin run run') (writer writer' : Archive.Writer)
    {next next' : Archive.Writer} (hnext : next.SamePlain next') :
    Twin { run.started writer with writer := next } { run'.started writer' with writer := next' }
      where
  output := h.output
  veiled := by
    rw [Run.started, Run.started, h.output, veiled_store, veiled_store, h.veiled]
  holds := h.holds.store writer.visible none
  writer := hnext

/-- The file of an entry has outgrown plain headers when its member is started, and of two sizes
that are listed for it only one asks for another header. -/
structure Crosses (s : Settings) (names : List String) (t : FileSystem × Entry) (size : Nat) :
    Prop where
  level : Archive.Writer.knowsLevel s.level = true
  fresh : t.2.relative.text ∉ names
  grown : ∃ mode content, Reads s t mode content ∧ Archive.plainLimit < content.size
  sides : ¬(Archive.plainLimit ≤ size ↔ Archive.plainLimit ≤ t.2.size)

/-- An entry is opened alike in both runs, if it does not lead to the output. -/
theorem Twin.opened (h : Twin run run')
    (hapart : ¬run.fs.LeadsTo (entry.relative.resolve s.root) run.output.location) (size : Nat) :
    run'.fs.openFile ((entry.resized size).relative.resolve s.root) =
        run.fs.openFile (entry.relative.resolve s.root) ∧
      run'.fs.Holds run'.output ∧
      ¬run'.fs.LeadsTo ((entry.resized size).relative.resolve s.root) run'.output.location := by
  rw [h.output]
  exact ⟨openFile_of_veiled h.veiled h.holds hapart, holds_of_veiled h.veiled h.holds,
    mt (leadsTo_of_veiled h.veiled) hapart⟩

section Sides

variable (h : Twin run run') (hlevel : run.writer.level = s.level)
  (hapart : ¬run.fs.LeadsTo (entry.relative.resolve s.root) run.output.location)
include h hlevel hapart

/-- What both runs make of an entry is the same if the sizes listed for it do not cross. -/
theorem Twin.added (hcross : ¬Crosses s run.writer.names (run.fs, entry) size) :
    let added := addFile s run entry
    let added' := addFile s run' (entry.resized size)
    Twin added.run added'.run ∧ added'.written = added.written ∧ added'.result = added.result := by
  obtain ⟨hsame, hholds', hapart'⟩ := h.opened hapart size
  dsimp only
  cases hopen : run.fs.openFile (entry.relative.resolve s.root) with
  | error e =>
    rw [addFile_unopened hopen, addFile_unopened (hsame.trans hopen)]
    exact ⟨h, rfl, rfl⟩
  | ok opened =>
    obtain ⟨mode, readable⟩ := opened
    have hopen' := hsame.trans hopen
    cases hstart : run.writer.start (memberOf s entry mode) with
    | error f =>
      have hname : (memberOf s (entry.resized size) mode).name = (memberOf s entry mode).name := rfl
      rw [addFile_refused hopen hstart,
        addFile_refused hopen' (h.writer.start_error hname hstart)]
      exact ⟨h, rfl, rfl⟩
    | ok writer =>
      obtain ⟨hknown, hfresh, -⟩ := Archive.Writer.start_eq_ok.1 hstart
      have hknown' : Archive.Writer.knowsLevel run'.writer.level = true := by
        rwa [h.writer.level]
      have hfresh' : (entry.resized size).relative.text ∉ run'.writer.names := by
        rwa [h.writer.names]
      cases readable with
      | error e =>
        obtain ⟨hstart, hread⟩ := begun_of_opened h.holds hapart hknown hfresh hopen
        obtain ⟨hstart', hread'⟩ := begun_of_opened hholds' hapart' hknown' hfresh' hopen'
        rw [addFile_unread hopen hstart hread, addFile_unread hopen' hstart' hread']
        exact ⟨h.started _ _ (h.writer.begun rfl), rfl, rfl⟩
      | ok content =>
        have hkept (hfits : Archive.plainLimit ≤ entry.size ∨ content.size ≤ Archive.plainLimit) :=
          addFile_kept h.holds hapart hknown hfresh hopen hfits
        have hkept' (hfits : Archive.plainLimit ≤ size ∨ content.size ≤ Archive.plainLimit) :=
          addFile_kept hholds' hapart' hknown' hfresh' hopen' hfits
        by_cases hsize : content.size ≤ Archive.plainLimit
        · rw [hkept (.inr hsize), hkept' (.inr hsize)]
          exact ⟨h.started _ _ (h.writer.begun rfl), rfl, rfl⟩
        · -- the sizes are on one side, or else they would cross
          have hside : Archive.plainLimit ≤ size ↔ Archive.plainLimit ≤ entry.size := by
            by_contra hsides
            exact hcross ⟨hlevel ▸ hknown, hfresh, ⟨mode, content, hopen, by omega⟩, hsides⟩
          by_cases hlisted : Archive.plainLimit ≤ entry.size
          · rw [hkept (.inl hlisted), hkept' (.inl (hside.2 hlisted))]
            exact ⟨h.started _ _ (h.writer.begun rfl), rfl, rfl⟩
          · have hlisted' : (entry.resized size).size < Archive.plainLimit :=
              Nat.lt_of_not_le (mt hside.1 hlisted)
            rw [addFile_given_up h.holds hapart hknown hfresh hopen (by omega) (by omega),
              addFile_given_up hholds' hapart' hknown' hfresh' hopen' hlisted' (by omega)]
            exact ⟨h.started _ _ (h.writer.abort_begun _ _), rfl, rfl⟩

/-- Where sizes cross, the run in which the smaller one is listed fails at the entry, and the other
one packs it. -/
theorem Twin.crossed (hcross : Crosses s run.writer.names (run.fs, entry) size) :
    let added := addFile s run entry
    let added' := addFile s run' (entry.resized size)
    (added.result = .error outgrown ∧ ∃ read, added'.result = .ok read) ∨
      (added'.result = .error outgrown ∧ ∃ read, added.result = .ok read) := by
  obtain ⟨hsame, hholds', hapart'⟩ := h.opened hapart size
  obtain ⟨hknown, hfresh, ⟨mode, content, hreads, hgrown⟩, hsides⟩ := hcross
  rw [← hlevel] at hknown
  have hreads' : Reads s (run'.fs, entry.resized size) mode content := hsame.trans hreads
  have hknown' : Archive.Writer.knowsLevel run'.writer.level = true := by
    rwa [h.writer.level]
  have hfresh' : (entry.resized size).relative.text ∉ run'.writer.names := by
    rwa [h.writer.names]
  by_cases hlisted : Archive.plainLimit ≤ entry.size
  · have hless : (entry.resized size).size < Archive.plainLimit :=
      Nat.lt_of_not_le fun hle => hsides ⟨fun _ => hlisted, fun _ => hle⟩
    right
    rw [addFile_kept h.holds hapart hknown hfresh hreads (.inl hlisted),
      addFile_given_up hholds' hapart' hknown' hfresh' hreads' hless hgrown]
    exact ⟨rfl, _, rfl⟩
  · have hlisted' : Archive.plainLimit ≤ (entry.resized size).size := by
      by_contra hless
      exact hsides ⟨fun hle => absurd hle hless, fun hle => absurd hle hlisted⟩
    left
    rw [addFile_given_up h.holds hapart hknown hfresh hreads (by omega) hgrown,
      addFile_kept hholds' hapart' hknown' hfresh' hreads' (.inl hlisted')]
    exact ⟨rfl, _, rfl⟩

end Sides

end Pack

end TreeArchive
