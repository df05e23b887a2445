import TreeArchive.Proofs.Listing
import TreeArchive.Proofs.ReadBack

/-!
The total of a dry run. Sizes are added in 64 bits. As long as their sum is such a number, it is
told as it is, in the document as well as in the last line; and if not, the addition ends the
program before any total is told.
-/
namespace TreeArchive.Console

open Decimal Json

variable {style : Style} {entries : List Entry}

/-- The document of a dry run is read back as one, with its sizes and their total. -/
theorem message_dryRunOutput (hjson : style.json = true)
    (h : (entries.map Entry.size).sum < UInt64.size) (output : Path) :
    ∃ value, (∀ v, IsText (style.dryRunOutput output entries).output.stdout v ↔ v = value) ∧
      Message.ofValue? value = some (Ending.listed output entries).message := by
  refine ⟨_, ?_, Message.ofValue?_documentOf (.listed output entries)⟩
  intro v
  rw [Style.dryRunOutput_of_json hjson h, document_eq]
  exact isText_line_iff

/-- A dry run tells the sum of the sizes that it lists, in its document and in its last line,
exactly if the sum is a number of 64 bits. Otherwise it panics: the document is not written at all,
and the listing has no last line. -/
theorem told_total_exact_iff (verbose quiet colors : Bool) (output : Path)
    (entries : List Entry) :
    let total := (entries.map Entry.size).sum
    let document := Style.dryRunOutput ⟨true, verbose, quiet, colors⟩ output entries
    let listing := Style.dryRunOutput ⟨false, verbose, false, colors⟩ output entries
    let lines := (entries.map (Listed.ofEntry verbose)).map Listed.line
    ((document.panic? = none ↔ total < UInt64.size) ∧
      (listing.panic? = none ↔ total < UInt64.size)) ∧
    (total < UInt64.size →
      (∃ value data, (∀ v, IsText document.output.stdout v ↔ v = value) ∧
        Message.ofValue? value = some (.listed data) ∧
        data.entries = entries.map (fun entry => (entry.relative.text, entry.size)) ∧
        data.totalSize = total) ∧
      listing.output.stdout = asLines (lines ++
        Style.dryRunSummary ⟨false, verbose, false, colors⟩ output entries.length total)) ∧
    (UInt64.size ≤ total → document = ⟨.empty, some .additionOverflow⟩ ∧
      listing = ⟨⟨asLines lines, ""⟩, some .additionOverflow⟩) := by
  intro total document listing lines
  refine ⟨⟨?_, ?_⟩, ?_, ?_⟩
  · have hpanic : document.panic? = if total < UInt64.size then none else some .additionOverflow :=
      Style.panic?_dryRunOutput _ output entries
    simp [hpanic]
  · have hpanic : listing.panic? = if total < UInt64.size then none else some .additionOverflow :=
      Style.panic?_dryRunOutput _ output entries
    simp [hpanic]
  · intro hfits
    obtain ⟨value, htext, hmessage⟩ := message_dryRunOutput
      (rfl : (⟨true, verbose, quiet, colors⟩ : Style).json = true) hfits output
    exact ⟨⟨value, _, htext, hmessage, rfl, rfl⟩, Style.stdout_dryRunOutput rfl rfl hfits output⟩
  · intro hlarge
    have hlisting : listing = _ := Style.dryRunOutput_of_plain_of_le rfl rfl hlarge output
    rw [Style.dryRunLines_eq] at hlisting
    exact ⟨Style.dryRunOutput_of_json_of_le rfl hlarge output, hlisting⟩

/-- Of three files of 2 ^ 63 - 1 bytes each no total is told. -/
theorem large_files_have_no_total :
    (largeEntries.map Entry.size).sum = 27670116110564327421 ∧
    Style.dryRunOutput ⟨true, false, false, false⟩ (.ofString "/o.zip") largeEntries =
      ⟨.empty, some .additionOverflow⟩ ∧
    Style.dryRunOutput ⟨false, false, false, false⟩ (.ofString "/o.zip") largeEntries =
      ⟨⟨"a\nb\nc\n", ""⟩, some .additionOverflow⟩ := by
  have hlarge : UInt64.size ≤ (largeEntries.map Entry.size).sum := by decide
  have hlines : asLines (Style.dryRunLines ⟨false, false, false, false⟩ largeEntries) =
      "a\nb\nc\n" := by decide
  refine ⟨rfl, Style.dryRunOutput_of_json_of_le rfl hlarge _, ?_⟩
  rw [← hlines]
  exact Style.dryRunOutput_of_plain_of_le rfl rfl hlarge _

end TreeArchive.Console
