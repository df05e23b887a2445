import TreeArchive.Proofs.Faithful
import TreeArchive.Proofs.Outline
import TreeArchive.Proofs.Reopened
import TreeArchive.Proofs.Stages

/-!
The outcome of a run, told from the items of its walk. While a run writes nothing but its output,
and no name that it keeps leads there, it adds one entry after the other up to the first item that
stands in its way: a failure of the walk, or an entry whose file cannot be opened.
-/
namespace TreeArchive

open FileSystem

namespace FileSystem

variable {fs fs' : FileSystem} {p : Path} {l l' : Location} {data data' : FileData}

theorem SameOutline.leadsTo (h : fs.SameOutline fs') (hleads : fs'.LeadsTo p l) :
    fs.LeadsTo p l := by
  obtain ⟨node, hfind⟩ := hleads
  rcases h.find_cases p true with ⟨e, -, hfail⟩ | ⟨there, before, after, hbefore, hafter, -⟩
  · cases hfind.symm.trans hfail
  · cases hfind.symm.trans hafter
    exact ⟨before, hbefore⟩

/-- What a path leads to is opened alike in file systems that differ in a file which the path does
not lead to. -/
theorem SameElsewhere.openFile_eq (h : fs.SameElsewhere fs' l)
    (hfile : fs.get? l = some (.file data)) (hfile' : fs'.get? l = some (.file data'))
    (hapart : ¬fs.LeadsTo p l) : fs'.openFile p = fs.openFile p := by
  unfold openFile
  rcases (h.sameOutline hfile hfile').find_cases p true with
    ⟨e, hfind, hfind'⟩ | ⟨there, node, node', hfind, hfind', -⟩
  · rw [hfind, hfind']
  · have hne : there ≠ l := by
      rintro rfl
      exact hapart ⟨node, hfind⟩
    have hshell := h.shell_of_ne (ne_directory_of_file hfile) (ne_directory_of_file hfile') hne
    rw [get?_of_find hfind, get?_of_find hfind'] at hshell
    have hshell := Option.some.inj hshell
    rw [hfind, hfind']
    by_cases hkind : node.kind = .directory
    · obtain ⟨mode, nodes, rfl⟩ := Node.exists_of_kind_directory hkind
      have hkind' : node'.kind = .directory := by
        rw [← Node.kind_shell, hshell, Node.kind_shell, hkind]
      obtain ⟨mode', nodes', rfl⟩ := Node.exists_of_kind_directory hkind'
      obtain ⟨rfl, -⟩ := Node.directory.inj hshell
      rfl
    · rw [Node.eq_of_shell hshell hkind]

end FileSystem

/-- The name that an item has in the archive. -/
def memberName? : Except Failure Entry → Option String
  | .ok entry => some entry.relative.text
  | .error _ => none

namespace Walk

/-- A file that is the only difference shows in no size, if no name that is kept leads there. -/
theorem sameSizes_of_apart {r : Rules} {fs fs' : FileSystem} {l : Location} {data : FileData}
    (h : fs.SameElsewhere fs' l) (hfile : fs.get? l = some (.file data))
    (hapart : ∀ names, names ≠ [] → (∀ n ∈ names, isLegalName n = true) →
      r.keeps (r.settings.source.below names) = true →
        ¬fs.LeadsTo (r.settings.source.below names) l) : SameSizes r fs fs' := by
  intro names hne hlegal hkeeps there found found' hfind hfind'
  have haway : ¬l <+: there := by
    intro hinit
    obtain rfl := eq_of_prefix_of_get? hfile (by simp [Node.kind]) hinit (get?_of_find hfind)
    exact hapart names hne hlegal hkeeps ⟨_, hfind⟩
  have hsame := h.get?_eq haway (get?_of_find hfind) (by simp [Node.kind])
  rw [get?_of_find hfind'] at hsame
  cases hsame
  rfl

/-- No two files below the source have the same name in the archive. -/
theorem nodup_memberNames (r : Rules) (fs : FileSystem) :
    ((items fs ⟨r, true, []⟩).filterMap memberName?).Nodup := by
  have hpaths := Rules.nodup_results_begin r fs
  rw [← items_of_fresh] at hpaths
  -- a name in the archive tells the path behind the root, and so the names below the source
  have hnamed {e : Entry} (he : .ok e ∈ items fs ⟨r, true, []⟩) : ∃ names,
      e.path = r.settings.source.below names ∧
        (e.relative.resolve r.settings.root).names = r.settings.source.names ++ names := by
    obtain ⟨names, data, hfound, hitem⟩ := (mem_items_of_fresh (Rules.not_isFault_ok e)).1 he
    obtain ⟨hrelative, hpath, -⟩ := Rules.ok_eq_itemOf.1 hitem
    refine ⟨names, hpath, ?_⟩
    rw [(RelativePath.names_resolve hrelative).2, Path.names_below]
    exact fun n hn => Path.ordinary_of_isLegalName (hfound.listed.legal n hn)
  rw [List.Nodup, List.pairwise_filterMap] at hpaths ⊢
  refine hpaths.imp_of_mem ?_
  intro i j hi hj hapart name hname name' hname' heq
  cases i with
  | error f => cases hname
  | ok e =>
    cases j with
    | error f => cases hname'
    | ok e' =>
      obtain ⟨names, hpath, hresolved⟩ := hnamed hi
      obtain ⟨names', hpath', hresolved'⟩ := hnamed hj
      cases hname
      cases hname'
      rw [RelativePath.eq_of_text_eq heq, hresolved'] at hresolved
      apply hapart _ rfl _ rfl
      rw [hpath, hpath', List.append_cancel_left hresolved]

end Walk

namespace Pack

/-- The first of some items that stands in the way of a run: a failure, or an entry whose file
cannot be opened behind the root. -/
def obstacle (s : Settings) (fs : FileSystem) : List (Except Failure Entry) → Option Failure
  | [] => none
  | .error f :: _ => some f
  | .ok entry :: rest =>
    match fs.openFile (entry.relative.resolve s.root) with
    | .error e => some (.unreadable (entry.relative.resolve s.root) e)
    | .ok _ => obstacle s fs rest

/-- A run in the middle of its walk. Since the output was created nothing but the output has
changed, none of the names that the walk keeps leads there, and the names of members that are still
to come are new. -/
structure Underway (s : Settings) (fs : FileSystem) (w : Walk) (run : Run) : Prop where
  same : fs.SameElsewhere run.fs run.output.location
  created : fs.Holds run.output
  holds : run.fs.Holds run.output
  settings : w.rules.settings = s
  below : w.BelowSource
  apart : ∀ names, names ≠ [] → (∀ n ∈ names, isLegalName n = true) →
    w.rules.keeps (s.source.below names) = true →
      ¬fs.LeadsTo (s.source.below names) run.output.location
  level : run.writer.level = s.level
  fresh : (run.writer.names ++ (w.items fs).filterMap memberName?).Nodup

section Underway

variable {s : Settings} {fs : FileSystem} {w w' : Walk} {run : Run} {entry : Entry}

theorem Underway.sameOutline (h : Underway s fs w run) : fs.SameOutline run.fs := by
  obtain ⟨-, data, hfile, -⟩ := h.created
  obtain ⟨-, data', hfile', -⟩ := h.holds
  exact h.same.sameOutline hfile hfile'

/-- The walk goes on as it would have before the run. -/
theorem Underway.next_eq (h : Underway s fs w run) (hsorted : s.sorted = true) :
    w.next run.fs = w.next fs := by
  obtain ⟨-, created, hfile, -⟩ := h.created
  apply Walk.next_of_outline h.sameOutline (h.settings ▸ hsorted) ?_ h.below
  exact Walk.sameSizes_of_apart h.same hfile (h.settings ▸ h.apart)

/-- An entry that comes next stands for a file that is there. -/
theorem Underway.sighted (h : Underway s fs w run) (hnext : w.next fs = some (.ok entry, w')) :
    ∃ names data, w.rules.Sighted fs names data ∧
      RelativePath.fromRoot (s.source.below names) s.root = .ok entry.relative ∧
      entry.size = data.content.size := by
  obtain ⟨-, -, hfault | ⟨names, data, hsighted, hitem⟩⟩ := Walk.sighted_of_next h.below hnext
  · exact absurd hfault (Rules.not_isFault_ok entry)
  · obtain ⟨hrelative, -, hsize⟩ := Rules.ok_eq_itemOf.1 hitem
    rw [h.settings] at hrelative
    exact ⟨names, data, hsighted, hrelative, hsize⟩

/-- Behind the root the next entry is opened as before the run, and it is not the output. -/
theorem Underway.openFile_eq (h : Underway s fs w run)
    (hnext : w.next fs = some (.ok entry, w')) :
    ¬run.fs.LeadsTo (entry.relative.resolve s.root) run.output.location ∧
      run.fs.openFile (entry.relative.resolve s.root) =
        fs.openFile (entry.relative.resolve s.root) := by
  obtain ⟨names, data, hsighted, hrelative, -⟩ := h.sighted hnext
  obtain ⟨l, hfind⟩ := hsighted.file
  have hkept := hsighted.kept
  rw [h.settings] at hfind hkept
  -- the walk found the file below the source; the run opens it behind the root
  have hapart : ¬fs.LeadsTo (entry.relative.resolve s.root) run.output.location := fun hleads =>
    h.apart names hsighted.ne_nil hsighted.legal hkept
      (hleads.of_resolve hsighted.ne_nil hsighted.legal hrelative hfind)
  obtain ⟨-, created, hfile, -⟩ := h.created
  obtain ⟨-, data', hfile', -⟩ := h.holds
  exact ⟨fun hleads => hapart (h.sameOutline.leadsTo hleads),
    h.same.openFile_eq hfile hfile' hapart⟩

/-- A file that can be opened can be read, and is as long as its entry says. -/
theorem Underway.reads (h : Underway s fs w run) (hnext : w.next fs = some (.ok entry, w'))
    {opened : Opened} (hopen : fs.openFile (entry.relative.resolve s.root) = .ok opened) :
    ∃ mode content, Reads s (run.fs, entry) mode content ∧ content.size = entry.size := by
  obtain ⟨names, data, hsighted, hrelative, hsize⟩ := h.sighted hnext
  obtain ⟨l, hfind⟩ := hsighted.file
  rw [h.settings] at hfind
  have hresolved := openFile_resolve hsighted.ne_nil hsighted.legal hrelative hfind
  rw [hopen] at hresolved
  refine ⟨data.mode, data.content, ?_, hsize.symm⟩
  rw [Reads, (h.openFile_eq hnext).2, hopen, hresolved]
  split
  · rename_i hlong
    simp [hlong] at hresolved
  · split
    · rfl
    · rename_i hlong hunreadable
      simp [hlong, hunreadable] at hresolved

/-- A member has the name of an entry and the size that was listed for it. -/
def Matches (entry : Entry) (record : Archive.Record) : Prop :=
  record.member.name = entry.relative.text ∧ record.member.content.size = entry.size

/-- The next entry is added if its file can be opened, and the run goes on behind it. -/
theorem Underway.added (h : Underway s fs w run)
    (hknown : Archive.Writer.knowsLevel s.level = true)
    (hnext : w.next fs = some (.ok entry, w')) {opened : Opened}
    (hopen : fs.openFile (entry.relative.resolve s.root) = .ok opened) :
    (addFile s run entry).result = .ok entry.size ∧
      Underway s fs w' (addFile s run entry).run ∧ ∃ record, Matches entry record ∧
        (addFile s run entry).run.writer.completed = run.writer.completed ++ [record] := by
  have hitems := Walk.items_of_next hnext
  have hfresh := h.fresh
  rw [hitems, List.filterMap_cons_some (f := memberName?) rfl] at hfresh
  -- its name is still to come, so no member has it yet
  have hnew : entry.relative.text ∉ run.writer.names := fun hmem =>
    (List.nodup_append.1 hfresh).2.2 _ hmem _ List.mem_cons_self rfl
  obtain ⟨hapart, -⟩ := h.openFile_eq hnext
  obtain ⟨mode, content, hreads, hsize⟩ := h.reads hnext hopen
  obtain ⟨read, hadded⟩ := addFile_of_reads run h.holds hapart (h.level ▸ hknown) hnew hreads hsize
  obtain ⟨-, record, hcopy, hread, hcompleted, hlevel⟩ :=
    copy_of_addFile run h.holds hapart h.level hadded
  obtain ⟨hbelow, hrules, -⟩ := Walk.sighted_of_next h.below hnext
  obtain ⟨houtput, -, hkeeps⟩ := addFile_frame s run entry
  -- the member is a copy of what was read, and what was read is as long as was listed
  have hmatches : Matches entry record := by
    obtain ⟨mode', content', hreads', rfl⟩ := hcopy
    cases hreads.symm.trans hreads'
    exact ⟨rfl, hsize⟩
  refine ⟨?_, ?_, record, hmatches, hcompleted⟩
  · rw [hadded, hread, hmatches.2]
  · exact {
      same := houtput ▸ h.same.trans (sameElsewhere_addFile s run entry)
      created := houtput ▸ h.created
      holds := houtput ▸ hkeeps h.holds
      settings := hrules ▸ h.settings
      below := hbelow
      apart := by rw [houtput, hrules]; exact h.apart
      level := hlevel
      fresh := by
        rw [names_of_added hadded, List.append_assoc]
        exact hfresh }

/-- A report that counts some more entries, as they were listed. -/
def counted (report : Report) (entries : List Entry) : Report :=
  { report with
    filesAdded := report.filesAdded + entries.length
    bytesRead := report.bytesRead + (entries.map Entry.size).sum }

/-- A run fails with the first obstacle. -/
theorem Underway.addAll_error (h : Underway s fs w run) (hsorted : s.sorted = true)
    (hknown : Archive.Writer.knowsLevel s.level = true) {limit : Nat} {f : Failure}
    (hlimit : (w.items fs).length < limit) (hobstacle : obstacle s fs (w.items fs) = some f)
    (report : Report) : (addAll s walking limit w run report).2.2 = .error f := by
  -- the limit stays larger than the number of items that are left
  induction limit generalizing w run report with
  | zero => omega
  | succ limit ih =>
    have hsame := h.next_eq hsorted
    cases hnext : w.next fs with
    | none =>
      rw [Walk.items_of_next_eq_none hnext] at hobstacle
      cases hobstacle
    | some pulled =>
      obtain ⟨item, w'⟩ := pulled
      rw [Walk.items_of_next hnext] at hobstacle hlimit
      cases item with
      | error g =>
        cases hobstacle
        rw [addAll_fault (hsame.trans hnext)]
      | ok entry =>
        rw [obstacle] at hobstacle
        cases hopen : fs.openFile (entry.relative.resolve s.root) with
        | error e =>
          rw [hopen] at hobstacle
          cases hobstacle
          have hfailed := addFile_unopened ((h.openFile_eq hnext).2.trans hopen)
          rw [addAll_failed (hsame.trans hnext) (congrArg Added.result hfailed)]
        | ok opened =>
          rw [hopen] at hobstacle
          obtain ⟨hadded, hafter, -⟩ := h.added hknown hnext hopen
          rw [addAll_added (hsame.trans hnext) hadded]
          exact ih hafter (Nat.lt_of_succ_lt_succ hlimit) hobstacle _

/-- A run without obstacles adds all entries, and finds them as they were listed. -/
theorem Underway.addAll_ok (h : Underway s fs w run) (hsorted : s.sorted = true)
    (hknown : Archive.Writer.knowsLevel s.level = true) {limit : Nat}
    (hlimit : (w.items fs).length < limit) (hobstacle : obstacle s fs (w.items fs) = none)
    (report : Report) : ∃ entries records, w.items fs = entries.map .ok ∧
      List.Forall₂ Matches entries records ∧
      (addAll s walking limit w run report).2.2 = .ok (counted report entries) ∧
      (addAll s walking limit w run report).1.writer.completed =
        run.writer.completed ++ records := by
  induction limit generalizing w run report with
  | zero => omega
  | succ limit ih =>
    have hsame := h.next_eq hsorted
    cases hnext : w.next fs with
    | none =>
      rw [Walk.items_of_next_eq_none hnext, addAll_exhausted (hsame.trans hnext)]
      exact ⟨[], [], rfl, .nil, rfl, (List.append_nil _).symm⟩
    | some pulled =>
      obtain ⟨item, w'⟩ := pulled
      have hitems := Walk.items_of_next hnext
      rw [hitems] at hobstacle hlimit
      cases item with
      | error g => cases hobstacle
      | ok entry =>
        rw [obstacle] at hobstacle
        cases hopen : fs.openFile (entry.relative.resolve s.root) with
        | error e =>
          rw [hopen] at hobstacle
          cases hobstacle
        | ok opened =>
          rw [hopen] at hobstacle
          obtain ⟨hadded, hafter, record, hmatches, hcompleted⟩ := h.added hknown hnext hopen
          obtain ⟨entries, records, hrest, hall, hresult, hrecords⟩ :=
            ih hafter (Nat.lt_of_succ_lt_succ hlimit) hobstacle (count report entry entry.size)
          rw [hitems, addAll_added (hsame.trans hnext) hadded]
          refine ⟨entry :: entries, record :: records, by rw [hrest]; rfl, .cons hmatches hall,
            ?_, ?_⟩
          · rw [hresult]
            simp only [counted, count, if_true, List.length_cons, List.map_cons, List.sum_cons]
            congr 2 <;> omega
          · rw [hrecords, hcompleted, List.append_assoc]
            rfl

end Underway

end Pack

end TreeArchive
