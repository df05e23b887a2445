import Mathlib
import TreeArchive.Proofs.Elsewhere
import TreeArchive.Proofs.OwnOutput

/-!
What one entry puts into the archive: a member with all bytes of the file that the entry names, if
that file is not the archive itself.
-/
namespace TreeArchive

open FileSystem

/-- The pieces in which a file is read are as long as the file. -/
theorem Content.sum_chunks (buffer size : Nat) : (chunks buffer size).sum = size := by
  have hdivided := Nat.div_add_mod size buffer
  rw [Nat.mul_comm] at hdivided
  by_cases hrest : size % buffer = 0
  · rw [hrest, Nat.add_zero] at hdivided
    simp [chunks, hrest, hdivided]
  · simp [chunks, hrest, hdivided]

namespace Archive.Writer

variable {w w' : Writer} {m : Member} {content : Content}

theorem fitting_of_le {limit written : Nat} {chunks : List Nat}
    (h : written + chunks.sum ≤ limit) : (fitting limit written chunks).2 = true := by
  induction chunks generalizing written with
  | nil => rfl
  | cons chunk rest ih =>
    rw [List.sum_cons] at h
    have hchunk : ¬written + chunk > limit := by omega
    simp only [fitting, hchunk, if_false]
    exact ih (by omega)

/-- A member is started at a level that is known, under a name that is new. -/
theorem start_eq_ok : w.start m = .ok w' ↔
    knowsLevel w.level = true ∧ m.name ∉ w.names ∧ w' = { w.complete with current := some m } := by
  have hnames : w.complete.records.any (·.member.name == m.name) = true ↔ m.name ∈ w.names := by
    simp [complete, names, List.any_eq_true]
  unfold start
  cases hlevel : knowsLevel w.level with
  | false => simp
  | true =>
    by_cases hname : m.name ∈ w.names
    · simp [hnames.2 hname, hname]
    · have hnone : w.complete.records.any (·.member.name == m.name) = false := by
        rwa [← Bool.not_eq_true, hnames]
      simp [hnone, hname, eq_comm]

/-- A member takes all of a content or is given up. -/
theorem eq_of_write {buffer : Nat} {taken : List Nat} (hcurrent : w.current = some m)
    (h : w.write buffer content = (taken, .ok w')) :
    w' = { w with current := some { m with content := content } } := by
  unfold write at h
  simp only [hcurrent] at h
  split at h
  · cases h
    rfl
  · split at h
    · cases h
      rfl
    · cases h

/-- A content that its header has room for is written. -/
theorem exists_of_write (hcurrent : w.current = some m)
    (hfits : m.large = true ∨ content.size ≤ plainLimit) (buffer : Nat) :
    ∃ taken w', w.write buffer content = (taken, .ok w') := by
  unfold write
  simp only [hcurrent]
  cases hlarge : m.large with
  | true => exact ⟨_, _, rfl⟩
  | false =>
    have hsize : content.size ≤ plainLimit := by
      rcases hfits with h | h
      · rw [hlarge] at h
        cases h
      · exact h
    have hfitting : (fitting plainLimit 0 (Content.chunks buffer content.size)).2 = true := by
      apply fitting_of_le
      rwa [Nat.zero_add, Content.sum_chunks]
    cases hfit : fitting plainLimit 0 (Content.chunks buffer content.size) with
    | mk taken complete =>
      rw [hfit] at hfitting
      obtain rfl : complete = true := hfitting
      exact ⟨_, _, rfl⟩

end Archive.Writer

namespace FileSystem

variable {fs fs' : FileSystem} {handle : Handle} {p : Path}

theorem Holds.of_get?_eq (h : fs.Holds handle)
    (heq : fs'.get? handle.location = fs.get? handle.location) : fs'.Holds handle := by
  obtain ⟨hl, data, hfile, hid⟩ := h
  exact ⟨hl, data, heq.trans hfile, hid⟩

/-- What is stored in the output does not show in any other file. -/
theorem openFile_store (h : fs.Holds handle) (hapart : ¬fs.LeadsTo p handle.location)
    (content : Content) (records : Option (List Archive.Record)) :
    (fs.store handle content records).openFile p = fs.openFile p := by
  have hfind := find_bare fs p true
  rw [← bare_store fs handle content records, find_bare] at hfind
  unfold openFile
  cases hbefore : fs.find p true with
  | error e =>
    cases hafter : (fs.store handle content records).find p true with
    | error e' =>
      rw [hbefore, hafter] at hfind
      cases hfind
      rfl
    | ok found =>
      rw [hbefore, hafter] at hfind
      cases hfind
  | ok found =>
    obtain ⟨l, node⟩ := found
    -- nothing stands below the output, which is a file
    have haway : ¬handle.location <+: l := by
      intro hinit
      obtain ⟨-, output, hfile, -⟩ := h
      obtain rfl := eq_of_prefix_of_get? hfile (by simp [Node.kind]) hinit (get?_of_find hbefore)
      exact hapart ⟨node, hbefore⟩
    obtain ⟨node', hafter, hbare⟩ :=
      find_of_bare_eq (bare_store fs handle content records).symm hbefore
    rw [hafter]
    cases node with
    | file data =>
      have hsame := (sameElsewhere_store fs handle content records).get?_eq
        haway (get?_of_find hbefore) (by simp [Node.kind])
      rw [get?_of_find hafter] at hsame
      cases hsame
      rfl
    | directory mode entries =>
      cases node' with
      | directory mode' entries' =>
        obtain ⟨rfl, -⟩ := Node.directory.inj hbare
        rfl
      | file data => cases hbare
      | link target => cases hbare
      | pipe => cases hbare
    | link target =>
      cases node' <;> first | rfl | cases hbare
    | pipe =>
      cases node' <;> first | rfl | cases hbare

end FileSystem

namespace Pack

variable {s : Settings} {entry : Entry}

/-- The file that an entry names can be read at some moment, and this is what it holds. -/
def Reads (s : Settings) (t : FileSystem × Entry) (mode : Nat) (content : Content) : Prop :=
  t.1.openFile (t.2.relative.resolve s.root) = .ok ⟨mode, .ok content⟩

/-- A member has the name of an entry and holds what the entry's file holds at some moment. -/
def IsCopy (s : Settings) (t : FileSystem × Entry) (record : Archive.Record) : Prop :=
  ∃ mode content, Reads s t mode content ∧
    record = .ofMember s.level { memberOf s t.2 mode with content := content }

/-- An entry that is added becomes the last member, a copy of its file under a new name. -/
theorem copy_of_addFile (run : Run) {read : Nat} (hholds : run.fs.Holds run.output)
    (hapart : ¬run.fs.LeadsTo (entry.relative.resolve s.root) run.output.location)
    (hlevel : run.writer.level = s.level) (h : (addFile s run entry).result = .ok read) :
    entry.relative.text ∉ run.writer.names ∧ ∃ record, IsCopy s (run.fs, entry) record ∧
      read = record.member.content.size ∧
      (addFile s run entry).run.writer.completed = run.writer.completed ++ [record] ∧
      (addFile s run entry).run.writer.level = s.level := by
  unfold addFile at h ⊢
  dsimp only at h ⊢
  cases hopen : run.fs.openFile (entry.relative.resolve s.root) with
  | error e => simp [hopen] at h
  | ok opened =>
    obtain ⟨mode, readable⟩ := opened
    simp only [hopen] at h ⊢
    cases hstart : run.writer.start (memberOf s entry mode) with
    | error f => simp [hstart] at h
    | ok writer =>
      obtain ⟨-, hnew, rfl⟩ := Archive.Writer.start_eq_ok.1 hstart
      -- the header goes to the output before the file is read, and the file is another one
      simp only [hstart, openFile_store hholds hapart, hopen] at h ⊢
      cases readable with
      | error e => simp [bind, Except.bind] at h
      | ok content =>
        simp only [bind, Except.bind] at h ⊢
        rcases hwrite : Archive.Writer.write _ bufferSize content with ⟨written, writer | writer⟩
        · simp [hwrite] at h
        · obtain rfl := Archive.Writer.eq_of_write rfl hwrite
          simp only [hwrite, Except.ok.injEq] at h ⊢
          refine ⟨hnew, .ofMember s.level { memberOf s entry mode with content := content },
            ⟨mode, content, hopen, rfl⟩, h.symm, ?_, hlevel⟩
          rw [← hlevel]
          rfl

/-- An entry is added if its file can be read, is as long as was listed and is not the output. -/
theorem addFile_of_reads (run : Run) {mode : Nat} {content : Content}
    (hholds : run.fs.Holds run.output)
    (hapart : ¬run.fs.LeadsTo (entry.relative.resolve s.root) run.output.location)
    (hlevel : Archive.Writer.knowsLevel run.writer.level = true)
    (hnew : entry.relative.text ∉ run.writer.names) (hreads : Reads s (run.fs, entry) mode content)
    (hsize : content.size = entry.size) : ∃ read, (addFile s run entry).result = .ok read := by
  have hopen : run.fs.openFile (entry.relative.resolve s.root) = .ok ⟨mode, .ok content⟩ := hreads
  have hstart := Archive.Writer.start_eq_ok (m := memberOf s entry mode).2 ⟨hlevel, hnew, rfl⟩
  -- a header without room for large sizes was chosen because the listed size is not large
  have hfits : (memberOf s entry mode).large = true ∨ content.size ≤ Archive.plainLimit := by
    rw [hsize]
    rcases Nat.lt_or_ge entry.size Archive.plainLimit with hless | hlarge
    · exact .inr (Nat.le_of_lt hless)
    · exact .inl (decide_eq_true hlarge)
  obtain ⟨taken, writer, hwrite⟩ := Archive.Writer.exists_of_write
    (w := { run.writer.complete with current := some (memberOf s entry mode) }) rfl hfits bufferSize
  unfold addFile
  simp only [hopen, hstart, openFile_store hholds hapart, bind, Except.bind, hwrite]
  exact ⟨_, rfl⟩

end Pack

end TreeArchive
