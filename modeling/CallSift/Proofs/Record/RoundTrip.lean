import CallSift.Proofs.Json.Codec
import CallSift.Proofs.Text.Bytes
import CallSift.Record.Codec

/-!
# Documents are read back

Every document type keeps its values, as long as their counts have 64 bits: each field is
kept under its own name, and absent ones stay absent.

* `keeps` of each type: from those of the types of its fields.
* `documents_round_trip`: both layouts of every type are read back.
-/
namespace CallSift

open Json

/-! ## Words -/

theorem Language.keeps (language : Language) : codec.Keeps language :=
  keeps_cases (by decide) (by cases language; decide)

theorem ReferenceShape.keeps (shape : ReferenceShape) : codec.Keeps shape :=
  keeps_cases (by decide) (by cases shape <;> decide)

theorem Stage.keeps (stage : Stage) : codec.Keeps stage :=
  keeps_cases (by decide) (by cases stage <;> decide)

theorem ReferenceKind.keeps (kind : ReferenceKind) : codec.Keeps kind :=
  keeps_cases (by decide) (by cases kind <;> decide)

/-! ## Places -/

/-- Every count has 64 bits. -/
structure Span.InRange (span : Span) : Prop where
  line : span.line < natBound
  column : span.column < natBound
  lastLine : span.lastLine < natBound
  lastColumn : span.lastColumn < natBound

theorem Span.keeps {span : Span} (h : span.InRange) : codec.Keeps span := by
  have hline := keeps_nat h.line
  have hcolumn := keeps_nat h.column
  have hlastLine := keeps_nat h.lastLine
  have hlastColumn := keeps_nat h.lastColumn
  have hmembers : Members ["line", "column", "last_line", "last_column"] _ :=
    ((hline.member.append hcolumn.member).append hlastLine.member).append hlastColumn.member
  refine ⟨.object hmembers.printable, nofun, fun format => ?_⟩
  simp only [codec, decode, encode, hmembers.of? (by decide)]
  simp [Fields.required, List.lookup_append, hline.decoded, hcolumn.decoded, hlastLine.decoded,
    hlastColumn.decoded]

theorem FileInfo.keeps (info : FileInfo) : codec.Keeps info := by
  have hstring := keeps_string
  have hmembers : Members ["filename", "relpath", "file", "directory"] _ :=
    (((hstring info.filename).member.append (hstring info.relpath).member).append
      (hstring info.file).member).append (hstring info.directory).member
  refine ⟨.object hmembers.printable, nofun, fun format => ?_⟩
  simp only [codec, decode, encode, hmembers.of? (by decide)]
  simp [Fields.required, List.lookup_append, (hstring _).decoded]

structure SourceLocation.InRange (location : SourceLocation) : Prop where
  row : location.row < natBound
  column : location.column < natBound

theorem SourceLocation.keeps {location : SourceLocation} (h : location.InRange) :
    codec.Keeps location := by
  have hrow := keeps_nat h.row
  have hcolumn := keeps_nat h.column
  have hinfo := location.fileInfo.keeps
  have hmembers : Members ["row", "column", "file_info"] _ :=
    (hrow.member.append hcolumn.member).append hinfo.member
  refine ⟨.object hmembers.printable, nofun, fun format => ?_⟩
  simp only [codec, decode, encode, hmembers.of? (by decide)]
  simp [Fields.required, List.lookup_append, hrow.decoded, hcolumn.decoded, hinfo.decoded]

structure SourceRange.InRange (range : SourceRange) : Prop where
  start : range.start.InRange
  stop : range.stop.InRange

theorem SourceRange.keeps {range : SourceRange} (h : range.InRange) : codec.Keeps range := by
  have hstart := SourceLocation.keeps h.start
  have hstop := SourceLocation.keeps h.stop
  have hmembers : Members ["start", "end"] _ := hstart.member.append hstop.member
  refine ⟨.object hmembers.printable, nofun, fun format => ?_⟩
  simp only [codec, decode, encode, hmembers.of? (by decide)]
  simp [Fields.required, List.lookup_append, hstart.decoded, hstop.decoded]

/-! ## Allow-lists -/

theorem ApiEntry.keeps (entry : ApiEntry) : codec.Keeps entry := by
  have hkind := entry.kind.keeps
  have hname := keeps_string entry.name
  have hbaseType := keeps_anyString entry.baseType
  have hfullName := keeps_anyString entry.fullName
  have hid : ∀ n ∈ entry.id, Codec.int32.Keeps n := fun n _ => keeps_int32 n
  have hmembers : Members ["type", "name", "base_type", "full_name", "id"] _ :=
    (((hkind.member.append hname.member).append (members_optional hbaseType)).append
      (members_optional hfullName)).append (members_optional hid)
  refine ⟨.object hmembers.printable, nofun, fun format => ?_⟩
  simp only [codec, decode, encode, hmembers.of? (by decide)]
  simp [Fields.required, Fields.defaulted, List.lookup_append, hkind.decoded, hname.decoded,
    optional_eq hbaseType, optional_eq hfullName, optional_eq hid]

theorem AllowList.keeps (list : AllowList) : codec.Keeps list := by
  have hapis : (Codec.list ApiEntry.codec).Keeps list.apis := keeps_list fun entry _ => entry.keeps
  have hfuncOnly := keeps_bool list.funcOnly
  have hsaveFeature := keeps_bool list.saveFeature
  have hsmtFormula := keeps_anyString list.smtFormula
  have hmembers : Members ["apis", "func_only", "save_feature", "smt_formula"] _ :=
    ((hapis.member.append hfuncOnly.member).append hsaveFeature.member).append
      (members_optional hsmtFormula)
  refine ⟨.object hmembers.printable, nofun, fun format => ?_⟩
  simp only [codec, decode, encode, hmembers.of? (by decide)]
  simp [Fields.defaulted, List.lookup_append, hapis.decoded, hfuncOnly.decoded,
    hsaveFeature.decoded, optional_eq hsmtFormula]

/-! ## Records and packages -/

def Record.InRange (record : Record) : Prop := record.range.InRange

theorem Record.keeps {record : Record} (h : record.InRange) : codec.Keeps record := by
  have hkind := record.kind.keeps
  have hstring := keeps_string
  have hbaseType := keeps_anyString record.baseType
  have harguments : ∀ texts ∈ record.arguments, (Codec.list Codec.string).Keeps texts :=
    fun _ _ => keeps_list fun text _ => hstring text
  have hrange := SourceRange.keeps h
  have hmembers :
      Members ["type", "name", "base_type", "full_name", "arguments", "source", "range"] _ :=
    (((((hkind.member.append (hstring record.name).member).append
      (members_optional hbaseType)).append (hstring record.fullName).member).append
      (members_optional harguments)).append (hstring record.source).member).append hrange.member
  refine ⟨.object hmembers.printable, nofun, fun format => ?_⟩
  simp only [codec, decode, encode, hmembers.of? (by decide)]
  simp [Fields.required, List.lookup_append, hkind.decoded, (hstring _).decoded, hrange.decoded,
    optional_eq hbaseType, optional_eq harguments]

def PackageResult.InRange (result : PackageResult) : Prop :=
  ∀ record ∈ result.records, record.InRange

theorem PackageResult.keeps {result : PackageResult} (h : result.InRange) :
    codec.Keeps result := by
  have hname := keeps_string result.name
  have hversion := keeps_anyString result.version
  have hlanguage := result.language.keeps
  have hallowList : ∀ list ∈ result.allowList, AllowList.codec.Keeps list :=
    fun list _ => list.keeps
  have hrecords : (Codec.list Record.codec).Keeps result.records :=
    keeps_list fun record hrecord => Record.keeps (h record hrecord)
  have hmembers : Members ["pkg_name", "pkg_version", "language", "config", "api_results"] _ :=
    (((hname.member.append (members_optional hversion)).append hlanguage.member).append
      (members_optional hallowList)).append hrecords.member
  refine ⟨.object hmembers.printable, nofun, fun format => ?_⟩
  simp only [codec, decode, encode, hmembers.of? (by decide)]
  simp [Fields.required, Fields.defaulted, List.lookup_append, hname.decoded, hlanguage.decoded,
    hrecords.decoded, optional_eq hversion, optional_eq hallowList]

def PackageResults.InRange (results : PackageResults) : Prop :=
  ∀ result ∈ results.packages, result.InRange

theorem PackageResults.keeps {results : PackageResults} (h : results.InRange) :
    codec.Keeps results := by
  have hpackages : (Codec.list PackageResult.codec).Keeps results.packages :=
    keeps_list fun result hresult => PackageResult.keeps (h result hresult)
  have hmembers : Members ["pkgs"] _ := hpackages.member
  refine ⟨.object hmembers.printable, nofun, fun format => ?_⟩
  simp only [codec, decode, encode, hmembers.of? (by decide)]
  simp [Fields.defaulted, hpackages.decoded]

/-! ## Compositions and diagnostics -/

def FileComposition.InRange (composition : FileComposition) : Prop := composition.lines < natBound

theorem FileComposition.keeps {composition : FileComposition} (h : composition.InRange) :
    codec.Keeps composition := by
  have hname := keeps_string composition.name
  have hlines := keeps_nat h
  have hnative := keeps_bool composition.native
  have hmembers : Members ["Name", "LoC", "Native"] _ :=
    (hname.member.append hlines.member).append hnative.member
  refine ⟨.object hmembers.printable, nofun, fun format => ?_⟩
  simp only [codec, decode, encode, hmembers.of? (by decide)]
  simp [Fields.required, List.lookup_append, hname.decoded, hlines.decoded, hnative.decoded]

def Composition.InRange (composition : Composition) : Prop :=
  ∀ file ∈ composition.files, file.InRange

theorem Composition.keeps {composition : Composition} (h : composition.InRange) :
    codec.Keeps composition := by
  have hfiles : (Codec.list FileComposition.codec).Keeps composition.files :=
    keeps_list fun file hfile => FileComposition.keeps (h file hfile)
  have hmembers : Members ["Files"] _ := hfiles.member
  refine ⟨.object hmembers.printable, nofun, fun format => ?_⟩
  simp only [codec, decode, encode, hmembers.of? (by decide)]
  simp [Fields.required, hfiles.decoded]

/-- A path is written as a text, if it is one. -/
def Diagnostic.IsText (diagnostic : Diagnostic) : Prop := diagnostic.path.bytes.IsText

theorem Diagnostic.keeps {diagnostic : Diagnostic} (h : diagnostic.IsText) :
    codec.Keeps diagnostic := by
  have htext : Path.mk diagnostic.path.text = diagnostic.path := congrArg Path.mk h.ofText_text
  have hpath := keeps_string diagnostic.path.text
  have hstage := diagnostic.stage.keeps
  have hmessage := keeps_string diagnostic.message
  have hmembers : Members ["path", "stage", "message"] _ :=
    (hpath.member.append hstage.member).append hmessage.member
  refine ⟨.object hmembers.printable, nofun, fun format => ?_⟩
  simp only [codec, decode, encode, hmembers.of? (by decide)]
  simp [Fields.required, List.lookup_append, hpath.decoded, hstage.decoded, hmessage.decoded,
    htext]

/-! ## All document types -/

/-- **Round trips.** Whatever its strings, its lists and its absent fields, a document whose
counts have 64 bits, and whose path is a text where it has one, is read back from its compact
text and from its pretty text, and is then the same. -/
theorem documents_round_trip :
    (∀ results : PackageResults, results.InRange → PackageResults.codec.RoundTrips results) ∧
    (∀ result : PackageResult, result.InRange → PackageResult.codec.RoundTrips result) ∧
    (∀ record : Record, record.InRange → Record.codec.RoundTrips record) ∧
    (∀ range : SourceRange, range.InRange → SourceRange.codec.RoundTrips range) ∧
    (∀ location : SourceLocation, location.InRange →
      SourceLocation.codec.RoundTrips location) ∧
    (∀ info : FileInfo, FileInfo.codec.RoundTrips info) ∧
    (∀ language : Language, Language.codec.RoundTrips language) ∧
    (∀ list : AllowList, AllowList.codec.RoundTrips list) ∧
    (∀ entry : ApiEntry, ApiEntry.codec.RoundTrips entry) ∧
    (∀ kind : ReferenceKind, ReferenceKind.codec.RoundTrips kind) ∧
    (∀ composition : Composition, composition.InRange →
      Composition.codec.RoundTrips composition) ∧
    (∀ file : FileComposition, file.InRange → FileComposition.codec.RoundTrips file) ∧
    (∀ diagnostic : Diagnostic, diagnostic.IsText → Diagnostic.codec.RoundTrips diagnostic) ∧
    (∀ stage : Stage, Stage.codec.RoundTrips stage) ∧
    (∀ shape : ReferenceShape, ReferenceShape.codec.RoundTrips shape) ∧
    (∀ span : Span, span.InRange → Span.codec.RoundTrips span) := by
  refine ⟨?_, ?_, ?_, ?_, ?_, ?_, ?_, ?_, ?_, ?_, ?_, ?_, ?_, ?_, ?_, ?_⟩
  · exact fun _ h => (PackageResults.keeps h).roundTrips
  · exact fun _ h => (PackageResult.keeps h).roundTrips
  · exact fun _ h => (Record.keeps h).roundTrips
  · exact fun _ h => (SourceRange.keeps h).roundTrips
  · exact fun _ h => (SourceLocation.keeps h).roundTrips
  · exact fun info => info.keeps.roundTrips
  · exact fun language => language.keeps.roundTrips
  · exact fun list => list.keeps.roundTrips
  · exact fun entry => entry.keeps.roundTrips
  · exact fun kind => kind.keeps.roundTrips
  · exact fun _ h => (Composition.keeps h).roundTrips
  · exact fun _ h => (FileComposition.keeps h).roundTrips
  · exact fun _ h => (Diagnostic.keeps h).roundTrips
  · exact fun stage => stage.keeps.roundTrips
  · exact fun shape => shape.keeps.roundTrips
  · exact fun _ h => (Span.keeps h).roundTrips

/-- A record at the edges: characters that are escaped and one beyond 16 bits, an empty text, an
empty list, and the largest count. -/
def edgeRecord : Record where
  kind := .functionDeclRefExpr
  name := "\"\\\n\u0001é😀"
  baseType := some ""
  fullName := ""
  arguments := some []
  source := "\t/"
  range :=
    let file : FileInfo := ⟨"a.rb", ".", "a.rb", "/app"⟩
    ⟨⟨1, 0, file⟩, ⟨18446744073709551615, 0, file⟩⟩

/-- The record survives both layouts, and so does the one without what is empty in it. -/
theorem edge_record_round_trips :
    edgeRecord.InRange ∧ Record.codec.RoundTrips edgeRecord ∧
    Record.codec.RoundTrips { edgeRecord with baseType := none, arguments := none } := by
  have h : edgeRecord.InRange := ⟨⟨by decide, by decide⟩, ⟨by decide, by decide⟩⟩
  obtain ⟨-, -, hrecord, -⟩ := documents_round_trip
  exact ⟨h, hrecord edgeRecord h, hrecord { edgeRecord with baseType := none, arguments := none } h⟩

end CallSift
