import CallSift.FileSystem.Access
import CallSift.Proofs.Analysis.Provenance
import CallSift.Proofs.FileSystem.Write
import CallSift.Proofs.Record.RoundTrip
import CallSift.Proofs.Walk.Extents

/-!
# Counts of an analysis

Lines and columns are counted in texts that files hold, so they are no larger than the
files. As long as the bytes of every file can be counted in 64 bits, whatever an analysis
answers can be read back from its documents.

* `Reference.Sliced.inRange`: the extent of a slice.
* `report_composition?`: the line of the composition for one file.
* `outcome_inRange`: the counts of an outcome.
-/
namespace CallSift

open Json (natBound)

/-! ## Texts -/

/-- What stands in a text has no more characters than the text has bytes. -/
theorem Text.length_le_size {text : String} {before rest : List Char}
    (h : text.toList = before ++ rest) : before.length ≤ text.utf8ByteSize := by
  have hbytes := length_le_byteLength text.toList
  rw [byteLength_toList, h, List.length_append] at hbytes
  omega

theorem lineCount_le (text : String) : lineCount text ≤ text.utf8ByteSize + 1 := by
  have hlength := Text.length_le_size (List.append_nil text.toList).symm
  have hcount := List.count_le_length (a := '\n') (l := text.toList)
  unfold lineCount
  omega

/-- Row and column of a place between two characters. -/
theorem Source.row_column_le {text : String} {before rest : List Char}
    (h : text.toList = before ++ rest) :
    (ofString text).row (Text.byteLength before) ≤ text.utf8ByteSize ∧
      (ofString text).column (Text.byteLength before) ≤ text.utf8ByteSize := by
  have hlength := Text.length_le_size h
  have hcount := List.count_le_length (a := '\n') (l := before)
  obtain ⟨head, hhead⟩ := Text.lastLine_suffix before
  have hline := congrArg List.length hhead
  rw [List.length_append] at hline
  have hchars : (ofString text).chars = before ++ rest := h
  rw [row_eq hchars, column_eq hchars]
  omega

theorem Reference.Sliced.inRange {text : String} {reference : Reference}
    (h : reference.Sliced (.ofString text)) (hsize : text.utf8ByteSize + 1 < natBound) :
    reference.span.InRange := by
  obtain ⟨start, stop, hslice, hspan⟩ := h
  obtain ⟨before, slice, rest, hchars, rfl, rfl, -⟩ := Source.slice?_eq_some hslice
  obtain ⟨hrow, hcolumn⟩ := Source.row_column_le (hchars.trans (List.append_assoc ..))
  obtain ⟨hlastRow, hlastColumn⟩ := Source.row_column_le hchars
  rw [hspan]
  constructor <;> simp only [Span.ofOffsets] <;> omega

theorem Record.inRange_of_reference {reference : Reference} {info : FileInfo} {record : Record}
    (h : ofReference reference info = .ok record) (hspan : reference.span.InRange) :
    record.InRange := by
  obtain ⟨-, rfl⟩ := ofReference_ok h
  exact ⟨⟨hspan.line, hspan.column⟩, ⟨hspan.lastLine, hspan.lastColumn⟩⟩

/-! ## Files -/

namespace FileSystem

/-- The bytes of every file can be counted, and one more. -/
def IsCountable (fs : FileSystem) : Prop :=
  ∀ location content permissions, fs.get? location = some (.file content permissions) →
    content.size + 1 < natBound

/-- A text is read from a file of its size. -/
theorem readText_eq_ok {fs : FileSystem} {workingDirectory path : Path} {text : String}
    (h : fs.readText workingDirectory path = .ok text) :
    ∃ location content permissions, fs.get? location = some (.file content permissions) ∧
      content = text.toUTF8 := by
  unfold readText at h
  cases hread : fs.read workingDirectory path with
  | error error => simp [hread] at h
  | ok content =>
    rw [hread] at h
    obtain rfl : content = text.toUTF8 := by
      simp only at h
      split at h
      · next decoded hdecoded =>
        obtain rfl := Except.ok.inj h
        unfold String.fromUTF8? at hdecoded
        split at hdecoded
        · obtain rfl := Option.some.inj hdecoded
          rfl
        · cases hdecoded
      · cases h
    unfold read at hread
    split at hread
    · next location entry hstat =>
      cases entry with
      | file found permissions =>
        simp only at hread
        split at hread
        · obtain rfl := Except.ok.inj hread
          exact ⟨location, _, permissions, resolve_file (stat_eq_ok.mp hstat), rfl⟩
        · cases hread
      | directory | link => simp only at hread; split at hread <;> cases hread
    · cases hread

theorem IsCountable.text {fs : FileSystem} (hcounts : fs.IsCountable)
    {workingDirectory path : Path} {text : String}
    (h : fs.readText workingDirectory path = .ok text) : text.utf8ByteSize + 1 < natBound := by
  obtain ⟨location, content, permissions, hfile, rfl⟩ := readText_eq_ok h
  exact hcounts location _ permissions hfile

end FileSystem

/-! ## Analyses -/

namespace Analyzer

variable {analyzer : Analyzer} {setting : Setting} {fs : FileSystem} {request : Request}
  {outcome : Outcome} {workingDirectory : Path}

/-- A file is a line of the composition if it can be read. -/
theorem report_composition? (analyzer : Analyzer) (fs : FileSystem) (workingDirectory : Path)
    (set : InputSet) (file : Path) :
    (analyzer.report fs workingDirectory set file).composition? =
      match fs.readText workingDirectory file with
      | .ok text => some ⟨file.text, lineCount text, set.isInput file⟩
      | .error _ => none := by
  unfold report
  split
  · next hinput =>
    unfold reportSource extractFile
    cases fs.readText workingDirectory file with
    | error cause => rfl
    | ok text => simp only [FileReport.composition?, hinput]
  · next hother =>
    cases fs.readText workingDirectory file with
    | error cause => rfl
    | ok text => simp only [Except.map, FileReport.composition?, Bool.eq_false_iff.mpr hother]

theorem fileRecords_inRange (hcounts : fs.IsCountable) {root file : Path} {found : List Record}
    (h : analyzer.fileRecords fs workingDirectory root file = .ok found) {record : Record}
    (hr : record ∈ found) : record.InRange := by
  obtain ⟨references, hreferences, hrecords⟩ := bind_eq_ok.mp h
  obtain ⟨reference, hmem, hrecord⟩ := mem_records hrecords hr
  refine Record.inRange_of_reference hrecord ?_
  obtain ⟨text, hread, hresult⟩ := parseFile_eq_ok.mp hreferences
  obtain ⟨tree, -, hfound⟩ := Extraction.mem_ofText hresult hmem
  exact (Node.walk_sliced hfound).inRange (hcounts.text hread)

/-- All counts of an outcome have 64 bits when those of the files have. -/
theorem outcome_inRange
    (hcounts : ∀ seen place, LooksAt setting fs request seen place → seen.IsCountable)
    (h : (analyzer.analyze setting fs request).result = .ok outcome) :
    outcome.results.InRange ∧ outcome.composition.InRange := by
  obtain ⟨seen, place, hlooks, hat⟩ := analyze_ok h
  have hseen := hcounts seen place hlooks
  constructor
  case left =>
    obtain ⟨set, -, haccounts⟩ := analyzeAt_ok hat
    intro package hpackage record hrecord
    obtain rfl := List.mem_singleton.mp hpackage
    obtain ⟨file, -, found, hresult, hmem⟩ := haccounts.mem_records.mp hrecord
    exact fileRecords_inRange hseen hresult hmem
  case right =>
    intro line hline
    unfold analyzeAt at hat
    split at hat
    · cases hat
    next set hset =>
    cases hat
    simp only [Outcome.ofReports, List.filterMap_map] at hline
    obtain ⟨file, -, hsome⟩ := List.mem_filterMap.mp hline
    simp only [Function.comp_apply, report_composition?] at hsome
    split at hsome
    · next text hread =>
      obtain rfl := Option.some.inj hsome
      exact Nat.lt_of_le_of_lt (lineCount_le text) (hseen.text hread)
    · cases hsome

end Analyzer
end CallSift
