import TreeArchive.Proofs.Channels
import TreeArchive.Proofs.JsonGrammar

/-!
The documents that are written are texts by the grammar, and what they say is what was to be told:
every text and every number is read back as it was, in its order. A listing whose sizes have no sum
of 64 bits is not told at all.
-/
namespace TreeArchive

namespace Path

/-- A path that is given as text is shown as that text. -/
theorem display_ofString (text : String) : (ofString text).display = text := by
  have hscan : Text.Utf8.lossy (Text.Utf8.encode text.toList) = text.toList := by
    rw [Text.Utf8.lossy, Text.Utf8.scan_encode, List.map_map]
    exact List.map_id _
  rw [display, ofString, ofChars, hscan, String.ofList_toList]

end Path

namespace Json

variable {α β : Type}

theorem isText_line_iff {j : Json} {v : Value} : IsText (j.render ++ "\n") v ↔ v = j.value := by
  have hline : IsText (j.render ++ "\n") j.value := by
    have hblank : Blanks ['\n'] := by simp [Blanks, isBlank]
    rw [IsText, String.toList_append]
    exact .blanks blanks_nil hblank ((isText_render_iff j).2 rfl)
  constructor
  · intro h
    rw [← read?_eq_some_iff] at h hline
    exact Option.some.inj (h.symm.trans hline)
  · rintro rfl
    exact hline

namespace Value

def text? : Value → Option String
  | .text s => some s
  | _ => none

def whole? : Value → Option Nat
  | .whole n => some n
  | _ => none

def bool? : Value → Option Bool
  | .bool b => some b
  | _ => none

/-- What is read from each item of an array. -/
def items? (read : Value → Option α) : Value → Option (List α)
  | .array items => items.mapM read
  | _ => none

/-- What is read from the field of that name. -/
def get? (name : String) (read : Value → Option α) (v : Value) : Option α :=
  (v.field? name).bind read

end Value

theorem get?_object (name : String) {read : Value → Option α} {fields : List (String × Json)}
    {j : Json} (h : fields.lookup name = some j) :
    (object fields).value.get? name read = read j.value := by
  rw [Value.get?, field?_object, h]
  rfl

/-- Items are read back one by one. -/
theorem items?_array {read : Value → Option β} {write : α → Json} {told : α → β}
    (h : ∀ a, read (write a).value = some (told a)) (items : List α) :
    (array (items.map write)).value.items? read = some (items.map told) := by
  rw [value, values_eq_map, List.map_map, Value.items?]
  induction items with
  | nil => rfl
  | cons a items ih =>
    rw [List.map_cons, List.mapM_cons, ih, Function.comp_apply, h]
    rfl

theorem items?_texts (texts : List String) :
    (array (texts.map .text)).value.items? Value.text? = some texts := by
  have hitem (s : String) : (Json.text s).value.text? = some (id s) := rfl
  rw [items?_array hitem, List.map_id]

end Json

namespace Console

open Json

/-- What is told of a run that has packed. -/
structure PackData where
  outputPath : String
  filesAdded : Nat
  bytesRead : Nat
  archiveSize : Nat
  replacedExisting : Bool
  milliseconds : Nat
  warnings : List String
  entries : List String

def PackData.ofValue? (v : Value) : Option PackData := do
  let outputPath ← v.get? "output_path" Value.text?
  let filesAdded ← v.get? "files_added" Value.whole?
  let bytesRead ← v.get? "bytes_read" Value.whole?
  let archiveSize ← v.get? "archive_size" Value.whole?
  let replacedExisting ← v.get? "replaced_existing" Value.bool?
  let milliseconds ← v.get? "duration_ms" Value.whole?
  let warnings ← v.get? "warnings" (Value.items? Value.text?)
  let entries ← v.get? "entries" (Value.items? Value.text?)
  return ⟨outputPath, filesAdded, bytesRead, archiveSize, replacedExisting, milliseconds, warnings,
    entries⟩

/-- What is told of a run that has only listed; an entry is told with its size. -/
structure DryRunData where
  outputPath : String
  files : Nat
  totalSize : Nat
  entries : List (String × Nat)

def DryRunData.ofValue? (v : Value) : Option DryRunData := do
  let outputPath ← v.get? "output_path" Value.text?
  let files ← v.get? "files" Value.whole?
  let totalSize ← v.get? "total_size" Value.whole?
  let entries ← v.get? "entries" <| Value.items? fun entry => do
    return (← entry.get? "path" Value.text?, ← entry.get? "size" Value.whole?)
  return ⟨outputPath, files, totalSize, entries⟩

/-- What one document tells. -/
inductive Message where
  | packed (data : PackData)
  | listed (data : DryRunData)
  | failed (text : String)

namespace Message

/-- Only what a dry run tells has the mark of one. -/
def ofData? (data : Value) : Option Message :=
  match data.get? "dry_run" Value.bool? with
  | some true => (DryRunData.ofValue? data).map listed
  | _ => (PackData.ofValue? data).map packed

def ofValue? (v : Value) : Option Message := do
  let status ← v.get? "status" Value.text?
  if status = "success" then v.get? "data" ofData?
  else if status = "error" then (v.get? "error" Value.text?).map failed
  else none

def outputPath? : Message → Option String
  | packed data => some data.outputPath
  | listed data => some data.outputPath
  | failed _ => none

end Message

/-- What there is to tell at the end of a run. -/
inductive Ending where
  | packed (report : Report) (entries : List String)
  | listed (output : Path) (entries : List Entry)
  | failed (diagnosis : Diagnosis)

namespace Ending

def written (style : Style) : Ending → Written
  | packed report entries => ⟨style.reportOutput report entries, none⟩
  | listed output entries => style.dryRunOutput output entries
  | failed diagnosis => ⟨style.errorOutput diagnosis, none⟩

/-- The sum of the sizes that are listed. -/
def total : Ending → Nat
  | listed _ entries => (entries.map Entry.size).sum
  | packed .. | failed _ => 0

def output? : Ending → Option Path
  | packed report _ => some report.output
  | listed output _ => some output
  | failed _ => none

/-- The same, in texts and numbers. -/
def message : Ending → Message
  | packed report entries =>
    .packed
      { outputPath := report.output.display
        filesAdded := report.filesAdded
        bytesRead := report.bytesRead
        archiveSize := report.archiveSize
        replacedExisting := report.replacedExisting
        milliseconds := report.duration.milliseconds
        warnings := report.warnings
        entries := entries }
  | listed output entries =>
    .listed
      { outputPath := output.display
        files := entries.length
        totalSize := (entries.map Entry.size).sum
        entries := entries.map fun entry => (entry.relative.text, entry.size) }
  | failed diagnosis => .failed diagnosis.oneLine

/-- The outcome that a document is made of. -/
def outcome : Ending → Except String Json
  | packed report entries => .ok (Style.reportJson report entries)
  | listed output entries => .ok (Style.dryRunJson output entries (entries.map Entry.size).sum)
  | failed diagnosis => .error diagnosis.oneLine

theorem written_of_json {style : Style} (hjson : style.json = true) {ending : Ending}
    (h : ending.total < UInt64.size) :
    ending.written style = ⟨⟨Style.document ending.outcome, ""⟩, none⟩ := by
  cases ending with
  | packed report entries =>
    rw [written, reportOutput_of_json hjson]
    rfl
  | listed output entries => exact Style.dryRunOutput_of_json hjson h output
  | failed diagnosis =>
    rw [written, errorOutput_of_json hjson]
    rfl

theorem written_of_le {style : Style} (hjson : style.json = true) {ending : Ending}
    (h : UInt64.size ≤ ending.total) :
    ending.written style = ⟨.empty, some .additionOverflow⟩ := by
  cases ending with
  | listed output entries => exact Style.dryRunOutput_of_json_of_le hjson h output
  | packed | failed => exact absurd h (by decide : ¬UInt64.size ≤ 0)

end Ending

/-- The document of an outcome. -/
def documentOf : Except String Json → Json
  | .ok data => .object [("operation", .text "pack"), ("status", .text "success"), ("data", data)]
  | .error why =>
    .object [("operation", .text "pack"), ("status", .text "error"), ("error", .text why)]

theorem document_eq (outcome : Except String Json) :
    Style.document outcome = (documentOf outcome).render ++ "\n" := by
  cases outcome with
  | ok data => rw [Style.document, documentOf]
  | error why => rw [Style.document, documentOf]

namespace Message

theorem ofData?_reportJson (report : Report) (entries : List String) :
    ofData? (Style.reportJson report entries).value =
      some (Ending.packed report entries).message := by
  have hmark : (Style.reportJson report entries).value.get? "dry_run" Value.bool? = none := by
    rw [Style.reportJson, Value.get?, field?_object]
    rfl
  have hdata : PackData.ofValue? (Style.reportJson report entries).value =
      some ⟨report.output.display, report.filesAdded, report.bytesRead, report.archiveSize,
        report.replacedExisting, report.duration.milliseconds, report.warnings, entries⟩ := by
    unfold PackData.ofValue? Style.reportJson
    rw [get?_object "output_path" rfl, get?_object "files_added" rfl, get?_object "bytes_read" rfl,
      get?_object "archive_size" rfl, get?_object "replaced_existing" rfl,
      get?_object "duration_ms" rfl, get?_object "warnings" rfl, get?_object "entries" rfl,
      items?_texts, items?_texts]
    rfl
  rw [ofData?, hmark]
  dsimp only
  rw [hdata]
  rfl

theorem ofData?_dryRunJson (output : Path) (entries : List Entry) :
    ofData? (Style.dryRunJson output entries (entries.map Entry.size).sum).value =
      some (Ending.listed output entries).message := by
  have hmark : (Style.dryRunJson output entries (entries.map Entry.size).sum).value.get? "dry_run"
      Value.bool? = some true := by
    rw [Style.dryRunJson, get?_object "dry_run" rfl]
    rfl
  have hdata : DryRunData.ofValue?
      (Style.dryRunJson output entries (entries.map Entry.size).sum).value =
        some ⟨output.display, entries.length, (entries.map Entry.size).sum,
          entries.map fun entry => (entry.relative.text, entry.size)⟩ := by
    unfold DryRunData.ofValue? Style.dryRunJson
    rw [get?_object "output_path" rfl, get?_object "files" rfl, get?_object "total_size" rfl,
      get?_object "entries" rfl, items?_array]
    · rfl
    · intro entry
      rw [get?_object "path" rfl, get?_object "size" rfl]
      rfl
  rw [ofData?, hmark]
  dsimp only
  rw [hdata]
  rfl

theorem ofValue?_success {data : Json} {message : Message} (h : ofData? data.value = some message) :
    ofValue? (documentOf (.ok data)).value = some message := by
  unfold ofValue? documentOf
  rw [get?_object "status" rfl, get?_object "data" rfl, h]
  rfl

theorem ofValue?_error (why : String) :
    ofValue? (documentOf (.error why)).value = some (failed why) := by
  unfold ofValue? documentOf
  rw [get?_object "status" rfl, get?_object "error" rfl]
  rfl

/-- A document is read as the message that it was to tell. -/
theorem ofValue?_documentOf (ending : Ending) :
    ofValue? (documentOf ending.outcome).value = some ending.message := by
  cases ending with
  | packed report entries => exact ofValue?_success (ofData?_reportJson report entries)
  | listed output entries => exact ofValue?_success (ofData?_dryRunJson output entries)
  | failed diagnosis => exact ofValue?_error diagnosis.oneLine

end Message

/-- The status says which of the two optional fields a document has. -/
theorem isSome_field?_documentOf (outcome : Except String Json) :
    let value := (documentOf outcome).value
    ((value.field? "data").isSome ↔ value.field? "status" = some (.text "success")) ∧
      ((value.field? "error").isSome ↔ value.field? "status" = some (.text "error")) := by
  cases outcome with
  | ok data =>
    simp only [documentOf, field?_object]
    simp [List.lookup, value]
  | error why =>
    simp only [documentOf, field?_object]
    simp [List.lookup, value]

/-- Where JSON is asked for, a run tells of its end exactly if the sizes that it lists have a sum of
64 bits. What is written then is a text by the grammar, for one value. The message is read back from
the value, with every text and number as it was; its status says whether there are data or an error;
and an output path that was given as text is told as it was given. Otherwise nothing is written. -/
theorem written_reads_back {style : Style} (hjson : style.json = true) (ending : Ending) :
    let written := ending.written style
    (written.panic? = none ↔ ending.total < UInt64.size) ∧
    (written.panic? = none → written.output.stderr = "" ∧
      ∃ value, (∀ v, IsText written.output.stdout v ↔ v = value) ∧
        Message.ofValue? value = some ending.message ∧
        ((value.field? "data").isSome ↔ value.field? "status" = some (.text "success")) ∧
        ((value.field? "error").isSome ↔ value.field? "status" = some (.text "error")) ∧
        ∀ text, ending.output? = some (.ofString text) →
          ending.message.outputPath? = some text) ∧
    (written.panic? ≠ none → written.output = .empty) := by
  intro written
  by_cases hfits : ending.total < UInt64.size
  · have hwritten : written = ⟨⟨(documentOf ending.outcome).render ++ "\n", ""⟩, none⟩ := by
      rw [← document_eq]
      exact Ending.written_of_json hjson hfits
    obtain ⟨hdata, herror⟩ := isSome_field?_documentOf ending.outcome
    rw [hwritten]
    refine ⟨by simp [hfits], fun _ => ⟨rfl, _, fun v => isText_line_iff,
      Message.ofValue?_documentOf ending, hdata, herror, ?_⟩, by simp⟩
    intro text htext
    cases ending with
    | packed report entries =>
      have hpath : report.output = .ofString text := Option.some.inj htext
      rw [← Path.display_ofString text, ← hpath]
      rfl
    | listed output entries =>
      have hpath : output = .ofString text := Option.some.inj htext
      rw [← Path.display_ofString text, ← hpath]
      rfl
    | failed diagnosis => cases htext
  · -- the sizes are added before anything is written
    have hwritten : written = ⟨.empty, some .additionOverflow⟩ :=
      Ending.written_of_le hjson (Nat.not_lt.1 hfits)
    rw [hwritten]
    simp [hfits]

/-- Quotes, backslashes, line ends, control characters and characters beyond the basic plane are
read back from names, warnings and paths. -/
theorem written_reads_back_escaped :
    let report : Report := ⟨.ofString "/\"x\"/\\.zip", 2, 7, 4294967296, true, ⟨1500000⟩,
      ["a\nb\t\x01", "𝄞\x7f"]⟩
    let names := ["\"\\/\r\n", "\x0c\x08\x1f𝄞é"]
    let written := (Ending.packed report names).written ⟨true, false, true, true⟩
    ∃ value, IsText written.output.stdout value ∧
      Message.ofValue? value = some (.packed ⟨"/\"x\"/\\.zip", 2, 7, 4294967296, true, 1,
        ["a\nb\t\x01", "𝄞\x7f"], names⟩) := by
  intro report names written
  obtain ⟨hfits, htold, -⟩ :=
    written_reads_back (rfl : (⟨true, false, true, true⟩ : Style).json = true)
      (.packed report names)
  obtain ⟨-, value, htext, hmessage, -, -, hpath⟩ := htold (hfits.2 (by decide))
  refine ⟨value, (htext value).2 rfl, ?_⟩
  have hshown : report.output.display = "/\"x\"/\\.zip" := Option.some.inj (hpath _ rfl)
  have htaken : report.duration.milliseconds = 1 := by decide
  rw [hmessage, Ending.message, hshown, htaken]

def largeEntries : List Entry :=
  [⟨.ofString "/a", .ofName "a" (by decide), 9223372036854775807⟩,
    ⟨.ofString "/b", .ofName "b" (by decide), 9223372036854775807⟩,
    ⟨.ofString "/c", .ofName "c" (by decide), 9223372036854775807⟩]

/-- Of three files of 2 ^ 63 - 1 bytes each no document is written. -/
theorem large_listing_is_no_document :
    let written := (Ending.listed (.ofString "/o.zip") largeEntries).written
      ⟨true, false, false, false⟩
    written = ⟨.empty, some .additionOverflow⟩ ∧ ¬∃ value, IsText written.output.stdout value := by
  have hsum : UInt64.size ≤ (Ending.listed (.ofString "/o.zip") largeEntries).total := by decide
  intro written
  have hwritten : written = ⟨.empty, some .additionOverflow⟩ := Ending.written_of_le rfl hsum
  refine ⟨hwritten, ?_⟩
  rintro ⟨value, htext⟩
  rw [hwritten, ← read?_eq_some_iff] at htext
  cases htext

end Console

end TreeArchive
