import TreeArchive.Proofs.Channels

/-!
What a call lists for people: a line for each name, with the size before it if sizes are asked for,
and behind an empty line the summary. A name may have a line end in it, and then it is no line.
-/
namespace TreeArchive

open CommandLine Console Decimal Text

namespace Console

namespace Diagnosis

theorem lines_append (s t : String) : lines (s ++ "\n" ++ t) = lines s ++ lines t := by
  have hbreak : (s ++ "\n" ++ t).toList = s.toList ++ '\n' :: t.toList := by simp
  have hcut : pieces (· == '\n') (s.toList ++ '\n' :: t.toList) =
      pieces (· == '\n') s.toList ++ pieces (· == '\n') t.toList := pieces_append rfl _ _
  rw [lines, hbreak, hcut, List.map_append]
  rfl

theorem not_mem_of_mem_lines {line text : String} (h : line ∈ lines text) :
    '\n' ∉ line.toList := by
  obtain ⟨piece, hpiece, rfl⟩ := List.mem_map.1 h
  rw [String.toList_ofList]
  intro hmem
  exact absurd (isSep_of_mem_pieces hpiece _ hmem) (by decide)

theorem lines_of_not_mem {text : String} (h : '\n' ∉ text.toList) : lines text = [text] := by
  have hpieces : pieces (· == '\n') text.toList = [text.toList] := by
    apply pieces_of_forall
    intro c hc
    rw [beq_eq_false_iff_ne]
    rintro rfl
    exact h hc
  rw [lines, hpieces, List.map_singleton, String.ofList_toList]

end Diagnosis

/-- The lines of a text, without what stands behind its last line end. -/
def linesOf (text : String) : List String :=
  (Diagnosis.lines text).dropLast

theorem not_mem_of_mem_linesOf {line text : String} (h : line ∈ linesOf text) :
    '\n' ∉ line.toList :=
  Diagnosis.not_mem_of_mem_lines (List.mem_of_mem_dropLast h)

theorem asLines_cons (line : String) (rest : List String) :
    asLines (line :: rest) = line ++ "\n" ++ asLines rest := by
  simp [asLines]

theorem asLines_append (lines rest : List String) :
    asLines (lines ++ rest) = asLines lines ++ asLines rest := by
  simp [asLines]

theorem linesOf_asLines (lines : List String) :
    linesOf (asLines lines) = lines.flatMap Diagnosis.lines := by
  have hlines : Diagnosis.lines (asLines lines) = lines.flatMap Diagnosis.lines ++ [""] := by
    induction lines with
    | nil => rfl
    | cons line rest ih =>
      rw [asLines_cons, Diagnosis.lines_append, ih, List.flatMap_cons, List.append_assoc]
  rw [linesOf, hlines, List.dropLast_concat]

/-- What is written line by line is read as these lines exactly if none of them has a line end. -/
theorem flatMap_lines_eq_iff (lines : List String) :
    lines.flatMap Diagnosis.lines = lines ↔ ∀ line ∈ lines, '\n' ∉ line.toList := by
  constructor
  · intro h line hline
    rw [← h] at hline
    obtain ⟨text, -, hline⟩ := List.mem_flatMap.1 hline
    exact Diagnosis.not_mem_of_mem_lines hline
  · intro h
    induction lines with
    | nil => rfl
    | cons line rest ih =>
      rw [List.forall_mem_cons] at h
      rw [List.flatMap_cons, Diagnosis.lines_of_not_mem h.1, ih h.2, List.singleton_append]

/-- What is listed of a file: its name and, if sizes are shown, its size. -/
structure Listed where
  name : String
  size? : Option Nat

namespace Listed

def ofEntry (sized : Bool) (entry : Entry) : Listed :=
  ⟨entry.relative.text, if sized then some entry.size else none⟩

def line (l : Listed) : String :=
  match l.size? with
  | some n => padLeft 10 (sizeText reportUnits n) ++ "  " ++ l.name
  | none => l.name

end Listed

/-- The name in a line with a size before it, that is, behind a number and a unit. -/
def nameBehindSize (line : String) : String :=
  let unit := ((line.toList.dropWhile (· == ' ')).dropWhile (· != ' ')).drop 1
  String.ofList ((unit.dropWhile (· != ' ')).drop 2)

/-- The names that a reader finds in a listing, who takes the lines before the first empty one. -/
def namesIn (sized : Bool) (text : String) : List String :=
  let listing := (linesOf text).takeWhile (· != "")
  if sized then listing.map nameBehindSize else listing

/-- Something is written, without blanks and line ends. -/
def IsWord (s : List Char) : Prop :=
  s ≠ [] ∧ ∀ c ∈ s, c ≠ ' ' ∧ c ≠ '\n'

theorem isWord_digits (n : Nat) : IsWord (digits n) := by
  refine ⟨Nat.toDigits_ne_nil, ?_⟩
  intro c hc
  have hdigit := Nat.isDigit_of_mem_toDigits (by decide) (by decide) hc
  constructor <;>
  · rintro rfl
    cases hdigit

theorem IsWord.append {s t : List Char} (hs : IsWord s) (ht : ∀ c ∈ t, c ≠ ' ' ∧ c ≠ '\n') :
    IsWord (s ++ t) :=
  ⟨List.append_ne_nil_of_left_ne_nil hs.1 _, List.forall_mem_append.2 ⟨hs.2, ht⟩⟩

theorem isWord_fixed (x : Binary64) : IsWord x.fixed.toList := by
  rw [Binary64.fixed, String.toList_ofList]
  refine (isWord_digits _).append ?_
  rw [List.forall_mem_cons]
  exact ⟨by decide, (isWord_digits _).2⟩

/-- A size is a number, a blank and a unit. -/
theorem sizeText_eq (n : Nat) : ∃ number unit, IsWord number ∧ IsWord unit ∧
    (sizeText reportUnits n).toList = number ++ ' ' :: unit := by
  unfold sizeText
  split
  · rename_i unit name hfind
    have hname : IsWord name.toList := by
      have hunits : ∀ unit ∈ reportUnits, IsWord unit.2.toList := by
        simp [reportUnits, IsWord]
      exact hunits _ (List.mem_of_find?_eq_some hfind)
    refine ⟨_, _, isWord_fixed (.div (.ofNat n) (.ofNat unit)), hname, ?_⟩
    change ((Binary64.div (.ofNat n) (.ofNat unit)).fixed ++ " " ++ name).toList = _
    simp
  · refine ⟨_, ['B'], isWord_digits n, by simp [IsWord], ?_⟩
    change (n.repr ++ " B").toList = _
    simp [digits, Nat.repr]

namespace Listed

variable {l : Listed} {n : Nat}

/-- A line with a size: blanks, a number, a blank, a unit, two blanks and the name. -/
theorem line_of_some (h : l.size? = some n) : ∃ room number unit, IsWord number ∧ IsWord unit ∧
    l.line.toList =
      List.replicate room ' ' ++ (number ++ ' ' :: (unit ++ ' ' :: ' ' :: l.name.toList)) := by
  obtain ⟨number, unit, hnumber, hunit, hsize⟩ := sizeText_eq n
  refine ⟨10 - (sizeText reportUnits n).length, number, unit, hnumber, hunit, ?_⟩
  have hline : l.line = padLeft 10 (sizeText reportUnits n) ++ "  " ++ l.name := by
    rw [line, h]
  simp [hline, padLeft, hsize]

theorem line_of_none (h : l.size? = none) : l.line = l.name := by
  rw [line, h]

theorem newline_mem_line : '\n' ∈ l.line.toList ↔ '\n' ∈ l.name.toList := by
  cases h : l.size? with
  | none => rw [line_of_none h]
  | some n =>
    obtain ⟨room, number, unit, hnumber, hunit, hline⟩ := line_of_some h
    have hnumber' : '\n' ∉ number := fun hmem => (hnumber.2 _ hmem).2 rfl
    have hunit' : '\n' ∉ unit := fun hmem => (hunit.2 _ hmem).2 rfl
    simp [hline, hnumber', hunit']

theorem line_ne_empty (h : l.name ≠ "") : l.line ≠ "" := by
  cases hsize : l.size? with
  | none => rwa [line_of_none hsize]
  | some n =>
    obtain ⟨room, number, unit, -, -, hline⟩ := line_of_some hsize
    intro hempty
    simp [hempty] at hline

/-- The name is found again behind the size. -/
theorem nameBehindSize_line (h : l.size? = some n) : nameBehindSize l.line = l.name := by
  obtain ⟨room, number, unit, hnumber, hunit, hline⟩ := line_of_some h
  have hword {s : List Char} (hs : IsWord s) (rest : List Char) :
      (s ++ ' ' :: rest).dropWhile (· != ' ') = ' ' :: rest := by
    rw [List.dropWhile_append_of_pos]
    · rfl
    · intro c hc
      simpa using (hs.2 c hc).1
  have hblanks (rest : List Char) : (List.replicate room ' ' ++ (number ++ rest)).dropWhile
      (· == ' ') = number ++ rest := by
    obtain ⟨c, digits, rfl⟩ := List.exists_cons_of_ne_nil hnumber.1
    rw [List.dropWhile_append_of_pos (by simp), List.cons_append, List.dropWhile_cons_of_neg]
    simpa using (hnumber.2 c List.mem_cons_self).1
  simp only [nameBehindSize, hline, hblanks, hword hnumber, List.drop_succ_cons, List.drop_zero,
    hword hunit, String.ofList_toList]

end Listed

section Read

variable {listed : List Listed} {summary : List String} {sized : Bool}

theorem linesOf_listing (listed : List Listed) (summary : List String) :
    linesOf (asLines (listed.map Listed.line ++ summary)) =
      listed.map Listed.line ++ linesOf (asLines summary) ↔
    ∀ l ∈ listed, '\n' ∉ l.name.toList := by
  rw [linesOf_asLines, linesOf_asLines, List.flatMap_append, List.append_left_inj,
    flatMap_lines_eq_iff, List.forall_mem_map]
  simp only [Listed.newline_mem_line]

theorem not_mem_of_mem_namesIn {name text : String} (h : name ∈ namesIn sized text) :
    '\n' ∉ name.toList := by
  unfold namesIn at h
  cases sized with
  | false => exact not_mem_of_mem_linesOf ((List.takeWhile_prefix _).subset h)
  | true =>
    obtain ⟨line, hline, rfl⟩ := List.mem_map.1 h
    intro hmem
    rw [nameBehindSize, String.toList_ofList] at hmem
    refine not_mem_of_mem_linesOf ((List.takeWhile_prefix _).subset hline) ?_
    exact (List.dropWhile_suffix _).mem ((List.dropWhile_suffix _).mem (List.mem_of_mem_drop
      ((List.dropWhile_suffix _).mem (List.mem_of_mem_drop hmem))))

/-- The names are read back exactly if none of them has a line end. -/
theorem namesIn_listing (hsized : ∀ l ∈ listed, l.size?.isSome = sized)
    (hnames : ∀ l ∈ listed, l.name ≠ "") (hsummary : summary.head? = some "") :
    namesIn sized (asLines (listed.map Listed.line ++ summary)) = listed.map Listed.name ↔
      ∀ l ∈ listed, '\n' ∉ l.name.toList := by
  constructor
  · intro h l hl
    apply not_mem_of_mem_namesIn
    rw [h]
    exact List.mem_map_of_mem hl
  · intro h
    have hlisting : (linesOf (asLines (listed.map Listed.line ++ summary))).takeWhile (· != "") =
        listed.map Listed.line := by
      obtain ⟨rest, rfl⟩ := List.head?_eq_some_iff.1 hsummary
      rw [(linesOf_listing listed _).2 h, linesOf_asLines, List.flatMap_cons,
        List.takeWhile_append_of_pos]
      · exact List.append_nil _
      · intro line hline
        obtain ⟨l, hl, rfl⟩ := List.mem_map.1 hline
        simpa using Listed.line_ne_empty (hnames l hl)
    rw [namesIn, hlisting]
    cases sized with
    | false =>
      refine List.map_congr_left fun l hl => Listed.line_of_none ?_
      simpa using hsized l hl
    | true =>
      rw [if_pos rfl, List.map_map]
      refine List.map_congr_left fun l hl => ?_
      obtain ⟨n, hn⟩ := Option.isSome_iff_exists.1 (hsized l hl)
      exact Listed.nameBehindSize_line hn

end Read

namespace Style

variable {style : Style}

theorem dryRunLines_eq (style : Style) (entries : List Entry) :
    style.dryRunLines entries =
      (entries.map (Listed.ofEntry style.verbose)).map Listed.line := by
  have hline (entry : Entry) : (Listed.ofEntry style.verbose entry).line =
      if style.verbose then padLeft 10 (sizeText reportUnits entry.size) ++ "  " ++
        entry.relative.text else entry.relative.text := by
    cases h : style.verbose <;> rfl
  rw [List.map_map]
  simp only [Function.comp_def, hline]
  rfl

/-- A listing whose sizes can be added, line by line. -/
theorem stdout_dryRunOutput (hjson : style.json = false) (hquiet : style.quiet = false)
    {entries : List Entry} (h : (entries.map Entry.size).sum < UInt64.size) (output : Path) :
    (style.dryRunOutput output entries).output.stdout =
      asLines ((entries.map (Listed.ofEntry style.verbose)).map Listed.line ++
        style.dryRunSummary output entries.length (entries.map Entry.size).sum) := by
  rw [dryRunOutput_of_plain hjson hquiet h, dryRunLines_eq, asLines_append]

theorem head?_reportLines (style : Style) (r : Report) :
    (style.reportLines r).head? = some "" := by
  simp [reportLines]

end Style

end Console

theorem RelativePath.text_ne_empty (r : RelativePath) : r.text ≠ "" := by
  intro hempty
  have hchars : r.chars = [] := by
    rw [chars, ← toList_text, hempty]
    rfl
  have hcomponents := pieces_chars r
  rw [hchars] at hcomponents
  have hmem : [] ∈ r.components := by
    rw [← hcomponents]
    exact List.mem_singleton_self _
  exact absurd (r.ordinary _ hmem) (by decide)

namespace Session

variable {a : Arguments} {fs : FileSystem} {taken : Duration}

/-- What a call is to list, and the summary behind it: the entries of a dry run, or the members of
the archive that a run leaves. -/
inductive IsListing (a : Arguments) (colors : Bool) (fs : FileSystem) (taken : Duration) :
    List Listed → List String → Prop
  | dryRun {entries : List Entry} (hdry : a.has .dryRun = true)
    (hlisted : Pack.dryRun (a.settings fs.workingDirectory.toPath) fs = .ok entries) :
    IsListing a colors fs taken (entries.map (Listed.ofEntry (a.has .verbose)))
      ((styleOf a colors).dryRunSummary (a.settings fs.workingDirectory.toPath).output
        entries.length (entries.map Entry.size).sum)
  | packed {report : Report} {l : Location} {records : List Archive.Record}
    (hdry : a.has .dryRun = false)
    (hpacked : (Pack.packTree (a.settings fs.workingDirectory.toPath) fs).result = .ok report)
    (hleaves : Pack.Leaves (Pack.packTree (a.settings fs.workingDirectory.toPath) fs)
      (a.settings fs.workingDirectory.toPath).output l records) :
    IsListing a colors fs taken (records.map fun record => ⟨record.member.name, none⟩)
      ((styleOf a colors).reportLines { report with duration := taken })

/-- Only a dry run shows sizes, if it is told to say more. -/
def showsSizes (a : Arguments) : Bool :=
  a.has .dryRun && a.has .verbose

theorem stdout_before (hdry : a.has .dryRun = false) (hfits : added a fs < UInt64.size)
    {around : Surroundings} (h : (styleOf a around.colors).isSilent = false) :
    (before a around fs).stdout = asLines (startedNames
      (Pack.packTree (a.settings fs.workingDirectory.toPath) fs).events) := by
  have hentry (name : String) : (styleOf a around.colors).entryOutput name = ⟨name ++ "\n", ""⟩ :=
    if_neg (Bool.eq_false_iff.1 h)
  apply String.toList_inj.1
  rw [before_of_pack hdry, (progress_eq hdry hfits around.colors).2.2]
  simp [hentry, asLines, List.flatMap_map]

/-- A call that succeeds, and is not to be quiet or to write JSON, writes a listing. -/
theorem exists_listing (hjson : a.has .json = false) (hquiet : a.has .quiet = false)
    (hok : outcome a fs = .done) (around : Surroundings) (taken : Duration) :
    ∃ listed summary, IsListing a around.colors fs taken listed summary ∧
      ((ofArguments a around fs).output taken).stdout =
        asLines (listed.map Listed.line ++ summary) ∧
      summary.head? = some "" ∧
      ∀ l ∈ listed, l.name ≠ "" ∧ l.size?.isSome = showsSizes a := by
  have hstyle : (styleOf a around.colors).json = false := hjson
  have hloud : (styleOf a around.colors).quiet = false := hquiet
  have hsilent : (styleOf a around.colors).isSilent = false := by
    rw [Style.isSilent, hstyle, hloud, Bool.or_false]
  obtain ⟨hfits, hresult⟩ := outcome_eq_done_iff.1 hok
  rcases exists_of_result_ok hresult with ⟨hdry, entries, hlisted⟩ | ⟨hdry, report, hpacked⟩
  · have hsizes : (entries.map Entry.size).sum < UInt64.size := by
      rwa [added_of_listed hdry hlisted around.colors, Style.addedSizes,
        if_neg (by simp [hloud])] at hfits
    refine ⟨_, _, .dryRun hdry hlisted, ?_, rfl, ?_⟩
    · rw [ofArguments_of_listed hdry hlisted hfits]
      exact Style.stdout_dryRunOutput hstyle hloud hsizes _
    · intro l hl
      obtain ⟨entry, -, rfl⟩ := List.mem_map.1 hl
      refine ⟨entry.relative.text_ne_empty, ?_⟩
      cases hverbose : a.has .verbose <;> simp [Listed.ofEntry, showsSizes, hdry, hverbose]
  · obtain ⟨l, records, hleaves, hnames, -⟩ := Pack.archive_of_success hpacked
    refine ⟨_, _, .packed hdry hpacked hleaves, ?_, Style.head?_reportLines _ _, ?_⟩
    · have hlines : (records.map fun record => (⟨record.member.name, none⟩ : Listed)).map
          Listed.line =
            startedNames (Pack.packTree (a.settings fs.workingDirectory.toPath) fs).events := by
        rw [List.map_map, ← hnames]
        rfl
      rw [ofArguments_of_packed hdry hpacked hfits, hlines, asLines_append]
      dsimp only
      rw [Output.append, stdout_before hdry hfits hsilent, Style.reportOutput,
        if_neg (by simp [hstyle]), if_neg (by simp [hloud])]
    · intro listed hl
      obtain ⟨record, hrecord, rfl⟩ := List.mem_map.1 hl
      refine ⟨?_, by simp [showsSizes, hdry]⟩
      have hname := List.mem_map_of_mem (f := fun record => record.member.name) hrecord
      rw [hnames] at hname
      obtain ⟨relative, -, hrelative⟩ := List.mem_map.1 hname
      exact hrelative ▸ relative.text_ne_empty

/-- A call that lists for people writes a line for each entry, in the order of the archive, and then
the summary. These are the lines of what it writes exactly if no name has a line end, and only then
are the names read back from it. -/
theorem listing_is_read_back_iff {words : List Word} (hparse : Arguments.parse words = .ok a)
    (hjson : a.has .json = false) (hquiet : a.has .quiet = false) (hok : outcome a fs = .done)
    (around : Surroundings) (taken : Duration) :
    let stdout := ((run words around fs).output taken).stdout
    ∃ listed summary, IsListing a around.colors fs taken listed summary ∧
      stdout = asLines (listed.map Listed.line ++ summary) ∧
      (linesOf stdout = listed.map Listed.line ++ linesOf (asLines summary) ↔
        ∀ l ∈ listed, '\n' ∉ l.name.toList) ∧
      (namesIn (showsSizes a) stdout = listed.map Listed.name ↔
        ∀ l ∈ listed, '\n' ∉ l.name.toList) := by
  intro stdout
  have hrun : run words around fs = ofArguments a around fs := by simp only [run, hparse]
  obtain ⟨listed, summary, hlisting, hstdout, hhead, hlisted⟩ :=
    exists_listing hjson hquiet hok around taken
  rw [← hrun] at hstdout
  have hlines : stdout = asLines (listed.map Listed.line ++ summary) := hstdout
  refine ⟨listed, summary, hlisting, hlines, ?_, ?_⟩
  · rw [hlines]
    exact linesOf_listing listed summary
  · rw [hlines]
    exact namesIn_listing (fun l hl => (hlisted l hl).2) (fun l hl => (hlisted l hl).1) hhead

/-- A directory with a file whose name has blanks, the first of them at its start. -/
def blankTree : FileSystem :=
  .ofEntries 1
    [(.ofString "pkg", .directory 0o755 [(.ofString " a  b", .ofBytes 0 [0x61])])]
    (by cbv)

def blankEntry : Entry :=
  ⟨.ofString "/pkg/ a  b", .ofName " a  b" (by decide), 1⟩

/-- To list `/pkg`, with sizes or without them. -/
def listingWords (sized : Bool) : List Word :=
  word "--dry-run" :: (if sized then [word "--verbose"] else []) ++ plainWords

def listingArguments (sized : Bool) : Arguments :=
  { plainArguments with flags := .dryRun :: if sized then [.verbose] else [] }

theorem settings_listingArguments (sized : Bool) (h : fs.workingDirectory = []) :
    (listingArguments sized).settings fs.workingDirectory.toPath = Pack.staleSettings := by
  rw [h]
  cases sized <;> cbv

theorem dryRun_listing {entry : Entry} (sized : Bool) (h : fs.workingDirectory = [])
    (hvalid : Pack.staleSettings.validate fs = .ok ())
    (hyields : Pack.staleRules.YieldsOnly fs (.ok entry)) :
    Pack.dryRun ((listingArguments sized).settings fs.workingDirectory.toPath) fs =
      .ok [entry] := by
  rw [settings_listingArguments sized h]
  exact Pack.dryRun_of_single hvalid Pack.ofSettings_staleSettings hyields

/-- Behind the sizes, names with blanks are read back as they are. -/
theorem listing_is_read_back_iff_blanks :
    namesIn true ((run (listingWords true) .plain blankTree).output .zero).stdout = [" a  b"] := by
  have hparse : Arguments.parse (listingWords true) = .ok (listingArguments true) := by cbv
  have hdry : Pack.dryRun ((listingArguments true).settings blankTree.workingDirectory.toPath)
      blankTree = .ok [blankEntry] :=
    dryRun_listing true rfl (by cbv)
      ⟨rfl, by cbv, ⟨.ofString "/pkg/ a  b", .file, false⟩, by cbv, by decide, by cbv, by cbv⟩
  have hok : outcome (listingArguments true) blankTree = .done :=
    outcome_of_listed (by decide) hdry (by decide)
  obtain ⟨listed, summary, hlisting, -, -, hnames⟩ :=
    listing_is_read_back_iff hparse (by decide) (by decide) hok .plain .zero
  cases hlisting with
  | dryRun _ hlisted =>
    obtain rfl := Except.ok.inj (hdry.symm.trans hlisted)
    exact hnames.2 (by decide)
  | packed hno => cases hno

/-- A directory with a file whose name has a line end. -/
def brokenTree : FileSystem :=
  .ofEntries 1
    [(.ofString "pkg", .directory 0o755 [(.ofString "a\nb", .ofBytes 0 [0x61])])]
    (by cbv)

def brokenEntry : Entry :=
  ⟨.ofString "/pkg/a\nb", .ofName "a\nb" (by decide), 1⟩

/-- The one file of a listing stands on two lines. -/
theorem broken_name_is_two_lines :
    outcome (listingArguments false) brokenTree = .done ∧
    IsListing (listingArguments false) false brokenTree .zero [⟨"a\nb", none⟩]
      ["", "Dry run: 1 files (1 B) would be packaged into /o.zip"] ∧
    linesOf ((run (listingWords false) .plain brokenTree).output .zero).stdout =
      ["a", "b", "", "Dry run: 1 files (1 B) would be packaged into /o.zip"] := by
  have hparse : Arguments.parse (listingWords false) = .ok (listingArguments false) := by cbv
  have hdry : Pack.dryRun ((listingArguments false).settings brokenTree.workingDirectory.toPath)
      brokenTree = .ok [brokenEntry] :=
    dryRun_listing false rfl (by cbv)
      ⟨rfl, by cbv, ⟨.ofString "/pkg/a\nb", .file, false⟩, by cbv, by decide, by cbv, by cbv⟩
  have hok : outcome (listingArguments false) brokenTree = .done :=
    outcome_of_listed (by decide) hdry (by decide)
  refine ⟨hok, .dryRun (by decide) hdry, ?_⟩
  have hfits := (outcome_eq_done_iff.1 hok).1
  simp only [run, hparse, ofArguments_of_listed (by decide : (listingArguments false).has
    .dryRun = true) hdry hfits, settings_listingArguments false
      (rfl : brokenTree.workingDirectory = [])]
  decide +kernel

end Session

end TreeArchive
