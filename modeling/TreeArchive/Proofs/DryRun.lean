import TreeArchive.Proofs.Obstacle
import TreeArchive.Proofs.Rerun

/-!
A dry run tells what a run packs. It looks at the file system as it is before the output is created,
and it opens no file; a run that sees its output nowhere comes to the same end, unless one of the
entries cannot be opened.
-/
namespace TreeArchive

open FileSystem

theorem mapM_id_ok {α ε : Type} (xs : List α) :
    (xs.map Except.ok : List (Except ε α)).mapM id = .ok xs := by
  induction xs with
  | nil => rfl
  | cons x rest ih =>
    rw [List.map_cons, List.mapM_cons, ih]
    rfl

theorem Walk.collect_eq (fs : FileSystem) (w : Walk) : w.collect fs = (w.items fs).mapM id := by
  induction hweight : w.weight fs using Nat.strongRecOn generalizing w with
  | ind weight ih =>
    subst hweight
    -- each item that is taken leaves a lighter walk
    rw [collect]
    split
    · rename_i hnext
      rw [items_of_next_eq_none hnext]
      rfl
    · rename_i f w' hnext
      rw [items_of_next hnext, List.mapM_cons]
      rfl
    · rename_i entry w' hnext
      rw [items_of_next hnext, List.mapM_cons, ih _ (weight_next hnext) w' rfl]
      cases (w'.items fs).mapM id <;> rfl

namespace Rules

variable {r : Rules} {fs fs₁ : FileSystem} {paths : List Path} {opened : List Location} {v : Visit}
  {l : Location}

/-- Nothing comes of a node that is left out, if it is no link that would be followed. -/
theorem traverse_of_left_out (hopened : Opened fs paths opened) (hleft : r.keeps v.path = false)
    (hplain : ¬(r.settings.followLinks = true ∧ v.kind = .link)) : r.traverse fs paths v = [] := by
  rw [traverse_eq]
  rcases visit_of_left_out hopened hleft with ⟨e, -, hlook⟩ | hnothing
  · obtain ⟨hfollow, hkind, -⟩ := (look_eq_error hopened).1 hlook
    exact absurd ⟨hfollow, hkind⟩ hplain
  · rw [hnothing, results]

end Rules

/-- Some names below the source name a location: the path leads there, or it is that of an entry
which the directory above has there, be the path too long to be looked up or not. -/
inductive Settings.Names (s : Settings) (fs : FileSystem) (l : Location) : List Name → Prop where
  | path {names : List Name} (h : fs.LeadsTo (s.source.below names) l) : Names s fs l names
  | entry {front : List Name} {name : Name} {here : Location}
      (h : fs.LeadsTo (s.source.below front) here) (hl : here ++ [name] = l) :
      Names s fs l (front ++ [name])

namespace Rules

/-- A walk does not see that the output is created. No path below the source names the output but
one of its normal form; and where nothing stands yet, no link that the walk looks at has the output
on its way. -/
structure Secluded (r : Rules) (fs fs₁ : FileSystem) (l : Location) : Prop where
  names : ∀ names, names ≠ [] → (∀ n ∈ names, isLegalName n = true) →
    r.settings.Names fs₁ l names →
      (r.settings.source.below names).normalize = r.settings.output.normalize
  links : fs.get? l = none → ∀ front here opened name target paths,
    r.Visited fs₁ front here opened name (.link target) paths →
    (r.settings.followLinks = true ∨
      r.keeps (r.settings.source.below (front ++ [name])) = true) →
        fs₁.Avoids (r.settings.source.below (front ++ [name])) l

variable {r : Rules} {fs fs₁ : FileSystem} {l : Location} {names : List Name}

theorem Secluded.left (h : r.Secluded fs fs₁ l)
    (hskipped : r.settings.output.normalize ∈ r.skipped) (hne : names ≠ [])
    (hlegal : ∀ n ∈ names, isLegalName n = true) (hnames : r.settings.Names fs₁ l names) :
    r.keeps (r.settings.source.below names) = false := by
  rw [← Bool.not_eq_true]
  intro hkeeps
  exact (keeps_eq_true.1 hkeeps).1 _ hskipped (h.names names hne hlegal hnames)

/-- A new file that is named nowhere is overlooked. -/
theorem Secluded.overlooked {data : FileData} (h : r.Secluded fs fs₁ l)
    (hskipped : r.settings.output.normalize ∈ r.skipped) (hwithout : fs₁.Without fs l)
    (hfile : fs₁.get? l = some (.file data)) : r.Overlooked (fun _ => true) fs₁ fs l where
  gone := by
    intro front here opened name node paths hv hl
    obtain ⟨mode, nodes, hfind⟩ := find_of_reached hv.reached
    have hleft := h.left hskipped (by simp) (List.forall_mem_append.2
      ⟨hv.reached.legal, List.forall_mem_singleton.2 hv.asListed.1⟩) (.entry ⟨_, hfind⟩ hl)
    -- what stands there is a file, so it is left out without being followed
    have hentry := hv.entry
    rw [hl, hfile] at hentry
    cases hentry
    rw [List.filter_true]
    exact traverse_of_left_out hv.opened hleft (by simp [listed, Node.kind])
  stays := by
    intro front here opened name node paths nodes nodes' hv hopened' hpaired hl
    by_cases hseen : r.settings.followLinks = true ∨
        r.keeps (r.settings.source.below (front ++ [name])) = true
    · right
      -- a link that is looked at keeps clear of the output, and any other node looks the same
      obtain ⟨mode, hbefore⟩ := hpaired.before
      have hlookup := hv.entry
      rw [get?_concat_of_directory (get?_of_find hbefore)] at hlookup
      apply visit_eq_of_avoids hwithout hv.opened hopened' hpaired hlookup hl
      intro target hfind
      obtain rfl := Option.some.inj (hv.entry.symm.trans (get?_of_find hfind))
      exact h.links hwithout.gone front here opened name target paths hv hseen
    · left
      -- what is left out and not followed may be anything
      obtain ⟨hfollow, hkeeps⟩ := not_or.1 hseen
      have hleft : r.keeps (r.listed front name node).path = false := eq_false_of_ne_true hkeeps
      have hplain : ¬(r.settings.followLinks = true ∧ (r.listed front name node).kind = .link) :=
        fun hlink => hfollow hlink.1
      rw [traverse_of_left_out hopened' hleft hplain, traverse_of_left_out hv.opened hleft hplain]
      exact ⟨rfl, rfl⟩

end Rules

namespace Pack

section Obstacle

variable {s : Settings} {fs fs₁ : FileSystem} {items : List (Except Failure Entry)} {f : Failure}

theorem obstacle_congr (h : ∀ entry, .ok entry ∈ items →
    fs₁.openFile (entry.relative.resolve s.root) = fs.openFile (entry.relative.resolve s.root)) :
    obstacle s fs₁ items = obstacle s fs items := by
  induction items with
  | nil => rfl
  | cons item rest ih =>
    cases item with
    | error f => rfl
    | ok entry =>
      rw [obstacle, obstacle, h entry List.mem_cons_self,
        ih fun other hother => h other (List.mem_cons_of_mem _ hother)]

/-- What stands in the way is the first failure, or an entry that cannot be opened while all entries
before it can. -/
theorem obstacle_cases (h : obstacle s fs items = some f) : items.mapM id = .error f ∨
    ∃ front : List Entry, ∃ entry rest e, items = front.map .ok ++ .ok entry :: rest ∧
      fs.openFile (entry.relative.resolve s.root) = .error e ∧
      f = .unreadable (entry.relative.resolve s.root) e ∧
      ∀ earlier ∈ front, ∃ opened,
        fs.openFile (earlier.relative.resolve s.root) = .ok opened := by
  induction items with
  | nil => cases h
  | cons item rest ih =>
    cases item with
    | error g =>
      cases h
      rw [List.mapM_cons]
      exact .inl rfl
    | ok first =>
      rw [obstacle] at h
      cases hopen : fs.openFile (first.relative.resolve s.root) with
      | error e =>
        rw [hopen] at h
        cases h
        exact .inr ⟨[], first, rest, e, rfl, hopen, rfl, by simp⟩
      | ok opened =>
        rw [hopen] at h
        rcases ih h with hfault | ⟨front, entry, others, e, hitems, hentry, hf, hfront⟩
        · rw [List.mapM_cons, hfault]
          exact .inl rfl
        · refine .inr ⟨first :: front, entry, others, e, by rw [hitems]; rfl, hentry, hf, ?_⟩
          exact List.forall_mem_cons.2 ⟨⟨opened, hopen⟩, hfront⟩

end Obstacle

/-- An entry that a run cannot open: the owner of its file may not read it, or its path behind the
root is too long. -/
inductive Withheld (s : Settings) (fs : FileSystem) (entry : Entry) : IoError → Prop where
  | unreadable {l : Location} {data : FileData} (h : fs.find entry.path true = .ok (l, .file data))
      (hmode : data.isReadable = false) : Withheld s fs entry (.system .permissionDenied)
  | tooLong (h : maxPath ≤ (entry.relative.resolve s.root).bytes.length) :
      Withheld s fs entry (.system .nameTooLong)

variable {s : Settings} {fs fs₀ fs₁ : FileSystem} {w : Walk} {replaced : Bool} {handle : Handle}
  {entry : Entry} {output p : Path}

/-- What comes of opening an entry of the walk. -/
theorem openFile_of_item (hwalk : Walk.ofSettings s = .ok w)
    (hentry : .ok entry ∈ (w.skip s.output).items fs) :
    ∃ l data, fs.find entry.path true = .ok (l, .file data) ∧
      fs.openFile (entry.relative.resolve s.root) =
        if maxPath ≤ (entry.relative.resolve s.root).bytes.length then
          .error (.system .nameTooLong)
        else if data.isReadable then .ok ⟨data.mode, .ok data.content⟩
        else .error (.system .permissionDenied) := by
  obtain ⟨names, data, hfound, hrelative, hpath, -⟩ := (Walk.mem_items_past_output hwalk).1 hentry
  obtain ⟨l, hfind⟩ := hfound.file
  have hopen := openFile_resolve hfound.listed.ne_nil hfound.listed.legal hrelative hfind
  exact ⟨l, data, by rw [hpath]; exact hfind, hopen⟩

/-- An entry is withheld for the reason for which it cannot be opened, and for none if it can. -/
theorem withheld_of_openFile (hwalk : Walk.ofSettings s = .ok w)
    (hentry : .ok entry ∈ (w.skip s.output).items fs) {e : IoError}
    (hopen : fs.openFile (entry.relative.resolve s.root) = .error e) : Withheld s fs entry e := by
  obtain ⟨l, data, hfind, heq⟩ := openFile_of_item hwalk hentry
  rw [hopen] at heq
  split at heq
  · rename_i hlong
    cases heq
    exact .tooLong hlong
  · split at heq
    · cases heq
    · rename_i hmode
      cases heq
      exact .unreadable hfind (eq_false_of_ne_true hmode)

theorem not_withheld_of_openFile (hwalk : Walk.ofSettings s = .ok w)
    (hentry : .ok entry ∈ (w.skip s.output).items fs) {opened : Opened}
    (hopen : fs.openFile (entry.relative.resolve s.root) = .ok opened) (e : IoError) :
    ¬Withheld s fs entry e := by
  obtain ⟨l, data, hfind, heq⟩ := openFile_of_item hwalk hentry
  rw [hopen] at heq
  intro h
  cases h with
  | tooLong hlong =>
    rw [if_pos hlong] at heq
    cases heq
  | unreadable hfile hmode =>
    cases hfind.symm.trans hfile
    rw [hmode] at heq
    split at heq <;> cases heq

section Created

variable (h : Created fs output fs₀ replaced fs₁ handle)
  (hplain : ∀ l node, fs.find output false = .ok (l, node) → node.kind = .file)
include h hplain

/-- If no more than a file may stand at the output, the new file stands where nothing was, or in the
place of a file. -/
theorem Created.vacant_or_file : (fs₀ = fs ∧ fs.get? handle.location = none) ∨
    ∃ data, fs.get? handle.location = some (.file data) := by
  rcases resetOutput_cases fs output with ⟨f, hreset, -⟩ | ⟨l, node, hfind, -, hreset⟩ |
    ⟨e, -, hreset⟩ <;> rw [h.reset] at hreset <;> cases hreset
  · right
    obtain ⟨spot, hspot, hl⟩ := h.spot
    obtain ⟨place, hlocate, hplace, -⟩ := find_eq_ok.1 hfind
    cases hspot.symm.trans hlocate
    have hl : l = handle.location := hplace.symm.trans hl
    obtain ⟨data, rfl⟩ := Node.exists_of_kind_file (hplain l node hfind)
    exact ⟨data, hl ▸ get?_of_find hfind⟩
  · left
    obtain ⟨-, -, -, -, -, hnone, -⟩ := createNew_eq_ok (createNew_of_createOutput h.create)
    exact ⟨rfl, hnone⟩

/-- A path leads to the same location when the output has been created. -/
theorem Created.find_of_find {l : Location} {node : Node} (hfind : fs.find p true = .ok (l, node)) :
    ∃ node', fs₁.find p true = .ok (l, node') := by
  obtain ⟨-, -, -, -, hext, -, -, hfile₁⟩ := createNew_eq_ok (createNew_of_createOutput h.create)
  rcases h.vacant_or_file hplain with ⟨rfl, -⟩ | ⟨data, hfile⟩
  · obtain ⟨node', hfind', -⟩ := hext.find hfind
    exact ⟨node', hfind'⟩
  · rcases (h.same.sameOutline hfile hfile₁).find_cases p true with ⟨e, hnone, -⟩ |
      ⟨there, before, after, hbefore, hafter, -⟩
    · cases hfind.symm.trans hnone
    · cases hfind.symm.trans hbefore
      exact ⟨after, hafter⟩

/-- A path that does not lead to the output leads to the same file. -/
theorem Created.find_file {l : Location} {data : FileData}
    (hfind : fs.find p true = .ok (l, .file data)) (hapart : ¬fs₁.LeadsTo p handle.location) :
    fs₁.find p true = .ok (l, .file data) := by
  obtain ⟨-, -, -, -, -, -, -, hfile₁⟩ := createNew_eq_ok (createNew_of_createOutput h.create)
  obtain ⟨node, hfind₁⟩ := h.find_of_find hplain hfind
  -- nothing stands below a file, so what is at or below the output is the output
  have haway : ¬handle.location <+: l := by
    intro hinit
    obtain rfl := eq_of_prefix_of_get? hfile₁ (by simp [Node.kind]) hinit (get?_of_find hfind₁)
    exact hapart ⟨node, hfind₁⟩
  have hsame := h.same.get?_eq haway (get?_of_find hfind) (by simp [Node.kind])
  rw [get?_of_find hfind₁] at hsame
  rw [hfind₁, Option.some.inj hsame]

end Created

/-- A dry run lists what a run packs: a member for each entry, of the listed size and in the same
order, a report that counts them, and no warning. -/
structure PackedAsListed (s : Settings) (fs : FileSystem) (entries : List Entry) (report : Report)
    (records : List Archive.Record) : Prop where
  listed : dryRun s fs = .ok entries
  packed : (packTree s fs).result = .ok report
  archive : ∃ l, Leaves (packTree s fs) s.output l records
  members : List.Forall₂ Matches entries records
  filesAdded : report.filesAdded = entries.length
  bytesRead : report.bytesRead = (entries.map Entry.size).sum
  warnings : report.warnings = []

/-- A run that gets as far as its output comes to the same end as a dry run. -/
def Agrees (s : Settings) (fs : FileSystem) : Prop :=
  (∃ e, (packTree s fs).result = .error (.removeOutput s.output e) ∨
    (packTree s fs).result = .error (.createOutput s.output e)) ∨
  (∃ f, dryRun s fs = .error f ∧ (packTree s fs).result = .error f) ∨
  ∃ entries report records, PackedAsListed s fs entries report records

/-- A run fails at an entry of the dry run's walk that is withheld, and no entry before it is. -/
structure StopsAt (s : Settings) (fs : FileSystem) (entry : Entry) (e : IoError) : Prop where
  failed : (packTree s fs).result = .error (.unreadable (entry.relative.resolve s.root) e)
  withheld : Withheld s fs entry e
  listed : ∃ w, ∃ front : List Entry, ∃ rest, Walk.ofSettings s = .ok w ∧
    (w.skip s.output).items fs = front.map .ok ++ .ok entry :: rest ∧
      ∀ earlier ∈ front, ∀ e, ¬Withheld s fs earlier e

theorem knowsLevel_of_isLevel {level : UInt8} (h : Settings.isLevel level = true) :
    Archive.Writer.knowsLevel level = true := by
  rw [Archive.Writer.knowsLevel, bne_iff_ne]
  rintro rfl
  exact absurd h (by decide)

theorem dryRun_eq (hvalid : s.validate fs = .ok ()) (hwalk : Walk.ofSettings s = .ok w) :
    dryRun s fs = ((w.skip s.output).items fs).mapM id := by
  rw [← Walk.collect_eq]
  simp only [dryRun, hvalid, hwalk, bind, Except.bind]

section Secluded

variable (hwalk : Walk.ofSettings s = .ok w) (h : Created fs s.output fs₀ replaced fs₁ handle)
  (hsecluded : (w.skip s.output).rules.Secluded fs fs₁ handle.location)
include hwalk hsecluded

/-- No path that the walk keeps names the output. -/
theorem not_names_of_keeps {names : List Name} (hne : names ≠ [])
    (hlegal : ∀ n ∈ names, isLegalName n = true)
    (hkeeps : (w.skip s.output).rules.keeps (s.source.below names) = true) :
    ¬s.Names fs₁ handle.location names := by
  intro hnames
  rw [Walk.skip_eq hwalk] at hkeeps hsecluded
  have hleft := hsecluded.left List.mem_cons_self hne hlegal hnames
  rw [hkeeps] at hleft
  cases hleft

include h

theorem underway_of_created : Underway s fs₁ (w.skip s.output) ⟨fs₁, handle, .ofLevel s.level⟩ := by
  have hapart {names : List Name} := @not_names_of_keeps s fs fs₁ w handle hwalk hsecluded names
  have hholds := holds_createNew (createNew_of_createOutput h.create)
  rw [Walk.skip_eq hwalk] at hapart ⊢
  exact {
    same := .refl _ _
    created := hholds
    holds := hholds
    settings := rfl
    below := Walk.belowSource_of_fresh _
    apart := fun names hne hlegal hkeeps hleads => hapart hne hlegal hkeeps (.path hleads)
    level := rfl
    fresh := Walk.nodup_memberNames _ _ }

variable (hplain : ∀ l node, fs.find s.output false = .ok (l, node) → node.kind = .file)
include hplain

/-- An entry is opened in the same way before and after the output is created. -/
theorem openFile_of_created (hentry : .ok entry ∈ (w.skip s.output).items fs) :
    fs₁.openFile (entry.relative.resolve s.root) = fs.openFile (entry.relative.resolve s.root) := by
  obtain ⟨names, data, hfound, hrelative, -⟩ := (Walk.mem_items_past_output hwalk).1 hentry
  have hne := hfound.listed.ne_nil
  have hlegal := hfound.listed.legal
  obtain ⟨l, hfind⟩ := hfound.file
  have hkeeps : (w.skip s.output).rules.keeps (s.source.below names) = true := by
    rw [Walk.skip_eq hwalk]
    exact hfound.visible names hne (List.prefix_refl names)
  have hapart := not_names_of_keeps hwalk hsecluded hne hlegal hkeeps
  have hfind₁ := h.find_file hplain hfind fun hleads => hapart (.path hleads)
  rw [openFile_resolve hne hlegal hrelative hfind, openFile_resolve hne hlegal hrelative hfind₁]

variable (hvalid : s.validate fs = .ok ()) (hsorted : s.sorted = true)
include hvalid hsorted

/-- The walk yields the same items before and after the output is created. -/
theorem items_of_created : (w.skip s.output).items fs₁ = (w.skip s.output).items fs := by
  have hapart {names : List Name} := @not_names_of_keeps s fs fs₁ w handle hwalk hsecluded names
  obtain ⟨-, -, -, -, hext, -, -, hfile₁⟩ := createNew_eq_ok (createNew_of_createOutput h.create)
  rw [Walk.skip_eq hwalk] at hapart hsecluded ⊢
  rcases h.vacant_or_file hplain with ⟨rfl, hnone⟩ | ⟨data, hfile⟩
  · -- seen from behind, the output is taken away, and nothing has come of it
    obtain ⟨-, -, -, ⟨there, mode, nodes, hsource⟩, -⟩ := Settings.validate_eq_ok.1 hvalid
    obtain ⟨node, hsource₁, hkind, -⟩ := hext.find hsource
    obtain ⟨mode₁, nodes₁, rfl⟩ := Node.exists_of_kind_directory hkind
    have hwithout : fs₁.Without fs₀ handle.location := ⟨h.same.symm, hnone⟩
    have hfilter := Rules.filter_results_eq (r := ⟨s, w.rules.exclusions, [s.output.normalize]⟩)
      hsorted hwithout (hsecluded.overlooked List.mem_cons_self hwithout hfile₁)
      ⟨⟨_, hsource₁⟩, ⟨_, hsource⟩⟩
    rw [List.filter_true, List.filter_true] at hfilter
    rw [Walk.items_of_fresh, Walk.items_of_fresh, Rules.begin_of_directory hsource₁,
      Rules.begin_of_directory hsource]
    exact hfilter.symm
  · -- one file has taken the place of another, and the walk sees no more than its size
    have houtline := h.same.sameOutline hfile hfile₁
    refine Walk.items_of_outline houtline hsorted ?_ (Walk.belowSource_of_fresh _)
    apply Walk.sameSizes_of_apart h.same hfile
    intro names hne hlegal hkeeps hleads
    exact hapart hne hlegal hkeeps (.path (houtline.symm.leadsTo hleads))

/-- What stands in the way of a run stood there before its output was created. -/
theorem obstacle_of_created : obstacle s fs₁ ((w.skip s.output).items fs₁) =
    obstacle s fs ((w.skip s.output).items fs) := by
  rw [items_of_created hwalk h hsecluded hplain hvalid hsorted]
  exact obstacle_congr fun entry => openFile_of_created hwalk h hsecluded hplain

theorem result_of_obstacle {f : Failure}
    (hobstacle : obstacle s fs ((w.skip s.output).items fs) = some f) :
    (packTree s fs).result = .error f := by
  have hlevel := knowsLevel_of_isLevel (Settings.validate_eq_ok.1 hvalid).1
  have hlimit := Nat.lt_succ_of_le (Walk.length_items_le fs₁ (w.skip s.output))
  rw [← obstacle_of_created hwalk h hsecluded hplain hvalid hsorted] at hobstacle
  refine (packTree_created hvalid hwalk h.reset h.create).2 ?_
  exact (underway_of_created hwalk h hsecluded).addAll_error hsorted hlevel hlimit hobstacle _

theorem packed_of_no_obstacle
    (hobstacle : obstacle s fs ((w.skip s.output).items fs) = none) :
    ∃ entries report records, PackedAsListed s fs entries report records := by
  have hlevel := knowsLevel_of_isLevel (Settings.validate_eq_ok.1 hvalid).1
  have hlimit := Nat.lt_succ_of_le (Walk.length_items_le fs₁ (w.skip s.output))
  rw [← obstacle_of_created hwalk h hsecluded hplain hvalid hsorted] at hobstacle
  obtain ⟨entries, records, hlist, hmembers, hadded, hcompleted⟩ :=
    (underway_of_created hwalk h hsecluded).addAll_ok hsorted hlevel hlimit hobstacle
      (Report.ofOutput s.output replaced)
  have hrun : (packedRun s s.output walking (w.skip s.output) fs₁ handle replaced).2.2 =
      .ok (counted (Report.ofOutput s.output replaced) entries) := hadded
  have hrecords : (packedRun s s.output walking (w.skip s.output) fs₁ handle
      replaced).1.writer.completed = records := hcompleted
  have hresult := result_of_created s walking (w.skip s.output) h.reset h.create
  have hleaves := leaves_of_created hvalid hwalk h
  dsimp only at hresult
  rw [← packTree_eq hvalid hwalk, hrun] at hresult
  rw [hrecords] at hleaves
  rw [items_of_created hwalk h hsecluded hplain hvalid hsorted] at hlist
  exact ⟨entries, _, records, {
    listed := by rw [dryRun_eq hvalid hwalk, hlist, mapM_id_ok]
    packed := hresult
    archive := ⟨_, hleaves⟩
    members := hmembers
    filesAdded := Nat.zero_add _
    bytesRead := Nat.zero_add _
    warnings := rfl }⟩

/-- Once a run has created its output, and sees it nowhere, it comes to the end of the dry run,
unless an entry is withheld. -/
theorem agrees_of_created : Agrees s fs ∨ ∃ entry e, StopsAt s fs entry e := by
  cases hfirst : obstacle s fs ((w.skip s.output).items fs) with
  | none =>
    exact .inl (.inr (.inr (packed_of_no_obstacle hwalk h hsecluded hplain hvalid hsorted hfirst)))
  | some f =>
    have hresult := result_of_obstacle hwalk h hsecluded hplain hvalid hsorted hfirst
    -- a dry run meets the failures of the walk too, but it opens no file
    rcases obstacle_cases hfirst with hfault | ⟨front, entry, rest, e, hlist, hopen, rfl, hfront⟩
    · exact .inl (.inr (.inl ⟨f, (dryRun_eq hvalid hwalk).trans hfault, hresult⟩))
    · have hmem {e : Entry} (he : e ∈ front ∨ e = entry) : .ok e ∈ (w.skip s.output).items fs := by
        rw [hlist, List.mem_append]
        rcases he with he | rfl
        · exact .inl (List.mem_map_of_mem he)
        · exact .inr List.mem_cons_self
      refine .inr ⟨entry, e, hresult, withheld_of_openFile hwalk (hmem (.inr rfl)) hopen, w, front,
        rest, hwalk, hlist, ?_⟩
      intro earlier hearlier
      obtain ⟨opened, hopened⟩ := hfront earlier hearlier
      exact not_withheld_of_openFile hwalk (hmem (.inl hearlier)) hopened

end Secluded

/-- Where no more than a file stands at the output, a run can remove it and create it anew, or it
says which of the two it cannot. -/
theorem created_of_plain (hvalid : s.validate fs = .ok ()) (hwalk : Walk.ofSettings s = .ok w)
    (hplain : ∀ l node, fs.find s.output false = .ok (l, node) → node.kind = .file) :
    (∃ e, (packTree s fs).result = .error (.removeOutput s.output e) ∨
      (packTree s fs).result = .error (.createOutput s.output e)) ∨
    ∃ fs₀ replaced fs₁ handle, Created fs s.output fs₀ replaced fs₁ handle := by
  have hpacked := packTree_eq hvalid hwalk
  cases hfind : fs.find s.output false with
  | ok found =>
    obtain ⟨l, node⟩ := found
    obtain ⟨data, rfl⟩ := Node.exists_of_kind_file (hplain l node hfind)
    obtain ⟨fs₁, handle, hcreated, -⟩ := created_of_file hfind
    exact .inr ⟨_, _, fs₁, handle, hcreated⟩
  | error e =>
    cases hmissing : e.isNotFound with
    | false =>
      have hreset : resetOutput fs s.output = .error (.removeOutput s.output e) := by
        simp [resetOutput, hfind, hmissing]
      exact .inl ⟨e, .inl (by simp only [hpacked, packFrom, hreset])⟩
    | true =>
      have hreset : resetOutput fs s.output = .ok (fs, false) := by
        simp [resetOutput, hfind, hmissing]
      cases hcreate : createOutput fs s.output with
      | ok created =>
        obtain ⟨fs₁, handle⟩ := created
        exact .inr ⟨_, _, fs₁, handle, created_of_vacant hreset hcreate⟩
      | error f =>
        have hresult : (packTree s fs).result = .error f := by
          simp only [hpacked, packFrom, hreset, hcreate]
        obtain ⟨e', -, ⟨rfl, -⟩ | rfl⟩ := createOutput_error hcreate
        · -- what was not there when the run looked is not there when it creates the output
          exact absurd hresult (packTree_ne_outputExists s fs s.output)
        · exact .inl ⟨e', .inr hresult⟩

/-- A sorted run comes to the same end as a dry run, if no more than a file stands at its output and
its walk does not see that the output is created. What it may meet in addition is an entry that it
cannot open. -/
theorem dryRun_agrees (hsorted : s.sorted = true)
    (hplain : ∀ l node, fs.find s.output false = .ok (l, node) → node.kind = .file)
    (hsecluded : ∀ w fs₀ replaced fs₁ handle, Walk.ofSettings s = .ok w →
      Created fs s.output fs₀ replaced fs₁ handle →
        (w.skip s.output).rules.Secluded fs fs₁ handle.location) :
    Agrees s fs ∨ ∃ entry e, StopsAt s fs entry e := by
  cases hvalid : s.validate fs with
  | error f =>
    refine .inl (.inr (.inl ⟨f, ?_, ?_⟩))
    · simp only [dryRun, hvalid, bind, Except.bind]
    · simp only [packTree, hvalid]
  | ok u =>
    obtain ⟨-, ⟨x, hx⟩, -⟩ := Settings.validate_eq_ok.1 hvalid
    have hwalk : Walk.ofSettings s = .ok ⟨⟨s, x, []⟩, true, []⟩ :=
      Walk.ofSettings_eq_ok.2 ⟨x, hx, rfl⟩
    rcases created_of_plain hvalid hwalk hplain with hfailed | ⟨fs₀, replaced, fs₁, handle, h⟩
    · exact .inl (.inl hfailed)
    · exact agrees_of_created hwalk h (hsecluded _ fs₀ replaced fs₁ handle hwalk h) hplain hvalid
        hsorted

theorem Created.unique {fs₀' fs₁' : FileSystem} {replaced' : Bool} {handle' : Handle}
    (h : Created fs output fs₀ replaced fs₁ handle)
    (h' : Created fs output fs₀' replaced' fs₁' handle') : fs₁ = fs₁' ∧ handle = handle' := by
  obtain ⟨rfl, -⟩ := Prod.mk.inj (Except.ok.inj (h.reset.symm.trans h'.reset))
  exact Prod.mk.inj (Except.ok.inj (h.create.symm.trans h'.create))

end Pack

section Single

variable {s : Settings} {r : Rules} {fs : FileSystem} {here l : Location} {mode : Nat}
  {name : Name} {inner node : Node} {names : List Name} {i : Except Failure Entry}

/-- Below a directory with one entry, which leads to no directory, a path leads nowhere but to that
entry. -/
theorem eq_singleton_of_find {source : Path}
    (hsource : fs.find source true = .ok (here, .directory mode [(name, inner)]))
    (hleaf : ∀ l node, fs.find (source.below [name]) true = .ok (l, node) →
      node.kind ≠ .directory)
    (hne : names ≠ []) (hlegal : ∀ n ∈ names, isLegalName n = true)
    (hfind : fs.find (source.below names) true = .ok (l, node)) : names = [name] := by
  induction names using List.reverseRecOn generalizing l node with
  | nil => exact absurd rfl hne
  | append_singleton front last ih =>
    obtain ⟨hfront, hlast⟩ := List.forall_mem_append.1 hlegal
    have hbytes : (source.below front).bytes ≠ [] := by
      by_cases hnil : front = []
      · exact hnil ▸ Rules.bytes_ne_nil_of_find hsource
      · exact Path.bytes_below_ne_nil hnil
          (fun n hn => Path.ordinary_of_isLegalName (hfront n hn)) source
    -- whatever the last name stands for, it stands in a directory
    obtain ⟨l', node', hplain⟩ : ∃ l' node',
        fs.find ((source.below front).child last) false = .ok (l', node') := by
      rw [Path.below_concat] at hfind
      rcases find_true_cases hfind with hplain | ⟨l', target, hlink⟩
      · exact ⟨l, node, hplain⟩
      · exact ⟨l', _, hlink⟩
    obtain ⟨-, outer, mode', nodes, houter, hlookup, -⟩ :=
      (find_child (hlast last (List.mem_singleton_self last)) hbytes).1 hplain
    by_cases hnil : front = []
    · subst hnil
      cases hsource.symm.trans houter
      by_cases hname : last = name
      · rw [hname]
        rfl
      · rw [List.lookup_cons, beq_eq_false_iff_ne.2 hname] at hlookup
        cases hlookup
    · rw [ih hnil hfront houter] at houter
      exact absurd rfl (hleaf _ _ houter)

/-- Below such a directory no path names what stands neither in the directory nor where its entry
leads. -/
theorem not_names_of_single
    (hsource : fs.find s.source true = .ok (here, .directory mode [(name, inner)]))
    (hout : ¬here <+: l) (hleaf : ∀ l' node, fs.find (s.source.below [name]) true =
      .ok (l', node) → node.kind ≠ .directory ∧ ¬l' <+: l)
    (hlegal : ∀ n ∈ names, isLegalName n = true) : ¬s.Names fs l names := by
  have hleads {names : List Name} {l' : Location} (hlegal : ∀ n ∈ names, isLegalName n = true)
      (hleads : fs.LeadsTo (s.source.below names) l') : ¬l' <+: l := by
    obtain ⟨node, hfind⟩ := hleads
    by_cases hne : names = []
    · subst hne
      cases hsource.symm.trans hfind
      exact hout
    · have hnames := eq_singleton_of_find hsource (fun l node h => (hleaf l node h).1) hne hlegal
        hfind
      rw [hnames] at hfind
      exact (hleaf _ _ hfind).2
  intro h
  cases h with
  | path h => exact hleads hlegal h (List.prefix_refl l)
  | entry h hl => exact hleads (List.forall_mem_append.1 hlegal).1 h (hl ▸ List.prefix_append _ _)

/-- A walk comes to one node only, which is neither followed nor left out, and yields its item. -/
structure Rules.YieldsOnly (r : Rules) (fs : FileSystem) (i : Except Failure Entry) : Prop where
  unfollowed : r.settings.followLinks = false
  begun : r.begin fs = .directory r.settings.source
  single : ∃ v, r.listing fs r.settings.source = [.ok v] ∧ v.kind ≠ .directory ∧
    r.keeps v.path = true ∧ r.leaf fs v = .item i

theorem Rules.YieldsOnly.visit (h : r.YieldsOnly fs i) : ∃ v,
    r.listing fs r.settings.source = [.ok v] ∧ r.visit fs [r.settings.source] v = .item i := by
  obtain ⟨v, hlisting, hkind, hkeeps, hleaf⟩ := h.single
  exact ⟨v, hlisting, by simp [Rules.visit, look, h.unfollowed, hkeeps, hkind, hleaf]⟩

theorem Rules.YieldsOnly.items_eq (h : r.YieldsOnly fs i) : Walk.items fs ⟨r, true, []⟩ = [i] := by
  obtain ⟨v, hlisting, hvisit⟩ := h.visit
  rw [Walk.items_of_fresh, h.begun, results, hlisting]
  simp only [List.flatMap_cons, List.flatMap_nil, traverseItem, traverse_eq, hvisit, results,
    List.append_nil]

theorem Rules.YieldsOnly.exists_next (h : r.YieldsOnly fs i) :
    ∃ w, Walk.next fs ⟨r, true, []⟩ = some (i, w) := by
  obtain ⟨v, hlisting, hvisit⟩ := h.visit
  exact ⟨_, Walk.next_of_first h.begun hlisting hvisit⟩

end Single

namespace Pack

variable {s : Settings} {fs fs₀ fs₁ : FileSystem} {replaced : Bool} {handle : Handle}
  {entry : Entry}

section Single

variable {x : Exclusions} {i : Except Failure Entry} {f : Failure} {e : IoError}
  (hvalid : s.validate fs = .ok ()) (hwalk : Walk.ofSettings s = .ok ⟨⟨s, x, []⟩, true, []⟩)
include hvalid hwalk

theorem dryRun_of_single (h : Rules.YieldsOnly ⟨s, x, [s.output.normalize]⟩ fs i) :
    dryRun s fs = [i].mapM id := by
  rw [dryRun_eq hvalid hwalk, ← h.items_eq]
  rfl

variable (hcreated : Created fs s.output fs₀ replaced fs₁ handle)
include hcreated

theorem packTree_of_unopened
    (h : Rules.YieldsOnly ⟨s, x, [s.output.normalize]⟩ fs₁ (.ok entry))
    (hopen : fs₁.openFile (entry.relative.resolve s.root) = .error e) :
    (packTree s fs).result = .error (.unreadable (entry.relative.resolve s.root) e) := by
  let run : Run := ⟨fs₁, handle, .ofLevel s.level⟩
  obtain ⟨w, hnext⟩ := h.exists_next
  have hpull : (Walk.skip ⟨⟨s, x, []⟩, true, []⟩ s.output).next run.fs = some (.ok entry, w) :=
    hnext
  have hopen' : run.fs.openFile (entry.relative.resolve s.root) = .error e := hopen
  have hadded : (addFile s run entry).result =
      .error (.unreadable (entry.relative.resolve s.root) e) := by rw [addFile_unopened hopen']
  refine (packTree_created hvalid hwalk hcreated.reset hcreated.create).2 ?_
  rw [addAll_failed hpull hadded]

theorem packTree_of_fault (h : Rules.YieldsOnly ⟨s, x, [s.output.normalize]⟩ fs₁ (.error f)) :
    (packTree s fs).result = .error f := by
  let run : Run := ⟨fs₁, handle, .ofLevel s.level⟩
  obtain ⟨w, hnext⟩ := h.exists_next
  have hpull : (Walk.skip ⟨⟨s, x, []⟩, true, []⟩ s.output).next run.fs = some (.error f, w) := hnext
  refine (packTree_created hvalid hwalk hcreated.reset hcreated.create).2 ?_
  rw [addAll_fault hpull]

end Single

def staleEntry : Entry :=
  ⟨.ofString "/pkg/a.txt", .ofName "a.txt" (by decide), 1⟩

/-- The rules of a walk past the output. -/
def staleRules : Rules :=
  ⟨staleSettings, Walk.plainExclusions, [staleSettings.output.normalize]⟩

theorem secluded_staleTree : staleRules.Secluded staleTree staleTreeCreated staleLocation where
  names := by
    intro names hne hlegal hnames
    have hsource : staleTreeCreated.find staleSettings.source true = .ok ([.ofString "pkg"],
        .directory 0o755 [(.ofString "a.txt", .ofBytes 0 [0x61])]) := by cbv
    have hfind : staleTreeCreated.find (staleSettings.source.below [.ofString "a.txt"]) true =
        .ok ([.ofString "pkg", .ofString "a.txt"], .ofBytes 0 [0x61]) := by cbv
    refine absurd hnames (not_names_of_single hsource (by decide) ?_ hlegal)
    intro l node h
    cases hfind.symm.trans h
    decide
  links := by
    intro hnone
    rw [get?_of_find find_staleTree] at hnone
    cases hnone

theorem dryRun_agrees_stale :
    ∃ report records, PackedAsListed staleSettings staleTree [staleEntry] report records := by
  have hvalid : staleSettings.validate staleTree = .ok () := by cbv
  have hyields : staleRules.YieldsOnly staleTree (.ok staleEntry) :=
    ⟨rfl, by cbv, ⟨.ofString "/pkg/a.txt", .file, false⟩, by cbv, by decide, by cbv, by cbv⟩
  have hdry : dryRun staleSettings staleTree = .ok [staleEntry] :=
    dryRun_of_single hvalid ofSettings_staleSettings hyields
  have hagrees : Agrees staleSettings staleTree ∨
      ∃ entry e, StopsAt staleSettings staleTree entry e := by
    apply dryRun_agrees rfl
    · intro l node hfind
      cases find_staleTree.symm.trans hfind
      rfl
    · intro w fs₀ replaced fs₁ handle hwalk h
      obtain ⟨rfl, rfl⟩ := created_staleTree.unique h
      obtain rfl := Except.ok.inj (ofSettings_staleSettings.symm.trans hwalk)
      exact secluded_staleTree
  rcases hagrees with (⟨e, hfailed⟩ | ⟨f, hfailed, -⟩ | ⟨entries, report, records, h⟩) |
    ⟨entry, e, hstops⟩
  · have hlate := not_failsEarly_of_created hvalid ofSettings_staleSettings created_staleTree
    rcases hfailed with hfailed | hfailed <;> exact absurd ⟨_, hfailed, .inr rfl⟩ hlate
  · cases hdry.symm.trans hfailed
  · obtain rfl := Except.ok.inj (hdry.symm.trans h.listed)
    exact ⟨report, records, h⟩
  · -- the file can be opened
    obtain ⟨w, front, rest, hwalk, hlist, -⟩ := hstops.listed
    obtain rfl := Except.ok.inj (ofSettings_staleSettings.symm.trans hwalk)
    have hentry : .ok entry ∈ [Except.ok (ε := Failure) staleEntry] := by
      rw [← hyields.items_eq]
      exact hlist ▸ List.mem_append_right _ List.mem_cons_self
    cases List.mem_singleton.1 hentry
    have hfind : staleTree.find staleEntry.path true =
        .ok ([.ofString "pkg", .ofString "a.txt"], .ofBytes 0 [0x61]) := by cbv
    cases hstops.withheld with
    | unreadable h hmode =>
      cases hfind.symm.trans h
      cases hmode
    | tooLong h => exact absurd h (by cbv)

theorem not_agrees {listed : Except Failure (List Entry)} {f : Failure}
    (hdry : dryRun s fs = listed) (hrun : (packTree s fs).result = .error f)
    (hlate : f.precedesOutput = false) (hne : listed ≠ .error f) : ¬Agrees s fs := by
  rintro (⟨e, hfailed | hfailed⟩ | ⟨g, hlisted, hfailed⟩ | ⟨entries, report, records, h⟩)
  · cases hrun.symm.trans hfailed
    cases hlate
  · cases hrun.symm.trans hfailed
    cases hlate
  · cases hrun.symm.trans hfailed
    exact hne (hdry.symm.trans hlisted)
  · cases hrun.symm.trans h.packed

/-- A sorted run whose output is no more than a file, and is named by no path below the source, be
it before or after the output is created. -/
structure Apart (s : Settings) (fs : FileSystem) : Prop where
  sorted : s.sorted = true
  plain : ∀ l node, fs.find s.output false = .ok (l, node) → node.kind = .file
  names : ∀ fs₀ replaced fs₁ handle, Created fs s.output fs₀ replaced fs₁ handle →
    ∀ names, (∀ n ∈ names, isLegalName n = true) →
      ¬s.Names fs handle.location names ∧ ¬s.Names fs₁ handle.location names

/-- A file that its owner may not read. -/
def lockedTree : FileSystem :=
  .ofEntries 1
    [(.ofString "pkg", .directory 0o755
      [(.ofString "a.txt", .file ⟨0, 0, .ofBytes ⟨⟨[0x61]⟩⟩, none⟩)])]
    (by cbv)

def lockedTreeCreated : FileSystem :=
  .ofEntries 2
    [(.ofString "o.zip", .ofBytes 1 []), (.ofString "pkg", .directory 0o755
      [(.ofString "a.txt", .file ⟨0, 0, .ofBytes ⟨⟨[0x61]⟩⟩, none⟩)])]
    (by cbv)

theorem created_lockedTree : Created lockedTree staleSettings.output lockedTree false
    lockedTreeCreated ⟨staleLocation, 1⟩ :=
  created_of_vacant (by cbv) (by cbv)

/-- A link that has the output on its way. -/
def detourTree : FileSystem :=
  .ofEntries 0
    [(.ofString "pkg", .directory 0o755 [(.ofString "x", .link (.ofString "/o.zip/y"))])]
    (by cbv)

def detourTreeCreated : FileSystem :=
  .ofEntries 1
    [(.ofString "o.zip", .ofBytes 0 []),
    (.ofString "pkg", .directory 0o755 [(.ofString "x", .link (.ofString "/o.zip/y"))])]
    (by cbv)

theorem created_detourTree : Created detourTree staleSettings.output detourTree false
    detourTreeCreated ⟨staleLocation, 0⟩ :=
  created_of_vacant (by cbv) (by cbv)

theorem apart_lockedTree : Apart staleSettings lockedTree where
  sorted := rfl
  plain := by
    intro l node hfind
    have hnone : lockedTree.find staleSettings.output false = .error (.system .noEntry) := by cbv
    cases hnone.symm.trans hfind
  names := by
    intro fs₀ replaced fs₁ handle h names hlegal
    obtain ⟨rfl, rfl⟩ := created_lockedTree.unique h
    have hapart {fs : FileSystem}
        (hsource : fs.find staleSettings.source true = .ok ([.ofString "pkg"], .directory 0o755
          [(.ofString "a.txt", .file ⟨0, 0, .ofBytes ⟨⟨[0x61]⟩⟩, none⟩)]))
        (hfind : fs.find (staleSettings.source.below [.ofString "a.txt"]) true =
          .ok ([.ofString "pkg", .ofString "a.txt"], .file ⟨0, 0, .ofBytes ⟨⟨[0x61]⟩⟩, none⟩)) :
        ¬staleSettings.Names fs staleLocation names := by
      refine not_names_of_single hsource (by decide) ?_ hlegal
      intro l node hfound
      cases hfind.symm.trans hfound
      decide
    exact ⟨hapart (by cbv) (by cbv), hapart (by cbv) (by cbv)⟩

theorem apart_detourTree : Apart staleSettings detourTree where
  sorted := rfl
  plain := by
    intro l node hfind
    have hnone : detourTree.find staleSettings.output false = .error (.system .noEntry) := by cbv
    cases hnone.symm.trans hfind
  names := by
    intro fs₀ replaced fs₁ handle h names hlegal
    obtain ⟨rfl, rfl⟩ := created_detourTree.unique h
    have hapart {fs : FileSystem} {e : IoError}
        (hsource : fs.find staleSettings.source true = .ok ([.ofString "pkg"], .directory 0o755
          [(.ofString "x", .link (.ofString "/o.zip/y"))]))
        (hfind : fs.find (staleSettings.source.below [.ofString "x"]) true = .error e) :
        ¬staleSettings.Names fs staleLocation names := by
      refine not_names_of_single hsource (by decide) ?_ hlegal
      intro l node hfound
      cases hfind.symm.trans hfound
    exact ⟨hapart (by cbv) (by cbv), hapart (by cbv) (by cbv)⟩

/-- A dry run lists a file that the run cannot read; and where a link would come by the output, the
run meets the new file there while the dry run meets nothing. -/
theorem dry_run_differs :
    (Apart staleSettings lockedTree ∧ ¬Agrees staleSettings lockedTree ∧
      dryRun staleSettings lockedTree = .ok [staleEntry] ∧
      (packTree staleSettings lockedTree).result =
        .error (.unreadable (.ofString "/pkg/a.txt") (.system .permissionDenied))) ∧
    (Apart staleSettings detourTree ∧ ¬Agrees staleSettings detourTree ∧
      dryRun staleSettings detourTree =
        .error (.walk (.ofString "/pkg/x") (.system .noEntry)) ∧
      (packTree staleSettings detourTree).result =
        .error (.walk (.ofString "/pkg/x") (.system .notDirectory))) := by
  constructor
  · have hvalid : staleSettings.validate lockedTree = .ok () := by cbv
    have hbefore : staleRules.YieldsOnly lockedTree (.ok staleEntry) :=
      ⟨rfl, by cbv, ⟨.ofString "/pkg/a.txt", .file, false⟩, by cbv, by decide, by cbv, by cbv⟩
    have hafter : staleRules.YieldsOnly lockedTreeCreated (.ok staleEntry) :=
      ⟨rfl, by cbv, ⟨.ofString "/pkg/a.txt", .file, false⟩, by cbv, by decide, by cbv, by cbv⟩
    have hdry : dryRun staleSettings lockedTree = .ok [staleEntry] :=
      dryRun_of_single hvalid ofSettings_staleSettings hbefore
    have hrun := packTree_of_unopened (e := .system .permissionDenied) hvalid
      ofSettings_staleSettings created_lockedTree hafter (by cbv)
    exact ⟨apart_lockedTree, not_agrees hdry hrun rfl (by simp), hdry, hrun⟩
  · have hvalid : staleSettings.validate detourTree = .ok () := by cbv
    have hbefore : staleRules.YieldsOnly detourTree
        (.error (.walk (.ofString "/pkg/x") (.system .noEntry))) :=
      ⟨rfl, by cbv, ⟨.ofString "/pkg/x", .link, false⟩, by cbv, by decide, by cbv, by cbv⟩
    have hafter : staleRules.YieldsOnly detourTreeCreated
        (.error (.walk (.ofString "/pkg/x") (.system .notDirectory))) :=
      ⟨rfl, by cbv, ⟨.ofString "/pkg/x", .link, false⟩, by cbv, by decide, by cbv, by cbv⟩
    have hdry : dryRun staleSettings detourTree =
        .error (.walk (.ofString "/pkg/x") (.system .noEntry)) :=
      dryRun_of_single hvalid ofSettings_staleSettings hbefore
    have hrun := packTree_of_fault hvalid ofSettings_staleSettings created_detourTree hafter
    have hne : Errno.noEntry ≠ Errno.notDirectory := by decide
    exact ⟨apart_detourTree, not_agrees hdry hrun rfl (by simpa using hne), hdry, hrun⟩

end Pack

end TreeArchive
