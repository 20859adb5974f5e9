import CallSift.Proofs.Analysis.Normal

/-!
# Where records come from

A record is written for a reference that the walk found in an input, that the allow-list
let pass under the very name and receiver that the record carries, and whose file the
record names at both ends.

* `Reports.formed`: what a visit of one node finds is formed as it should be; from it,
  `ofText_formed`, so is every reference of a text, and it passes the filter.
* `mem_records`: a record carries over what its reference says.
* `records_have_origin`: all records of an analysis come about in this way.
-/
namespace CallSift

/-! ## What references are made of -/

/-- The arguments of a reference, if there are any, are not none at all, and the reference of a
literal has the one name and no receiver. -/
structure Reference.Formed (reference : Reference) : Prop where
  arguments : reference.arguments ≠ some []
  command : reference.shape = .inlineExecution →
    reference.name = commandName ∧ reference.qualifier = none

namespace Node

theorem argumentTexts_ne_nil {source : Source} {list : Node} {arguments : Option (List String)}
    (h : argumentTexts source list = .ok arguments) : arguments ≠ some [] := by
  unfold argumentTexts at h
  cases hoperands : list.operands with
  | nil =>
    rw [hoperands] at h
    cases h
    nofun
  | cons first rest =>
    rw [hoperands] at h
    obtain ⟨texts, htexts, rfl⟩ := map_eq_ok.mp h
    rintro ⟨⟩
    cases (mapM_ok htexts).1

theorem callReference_formed {source : Source} {parent : Option Node} {node : Node}
    {reference : Reference} (h : node.callReference source parent = .ok (some reference)) :
    reference.Formed := by
  have hshape := callReference_shape h
  refine ⟨?_, fun hcommand => by rw [hshape] at hcommand; cases hcommand⟩
  obtain ⟨name, qualifier, arguments, text, -, -, harguments, -, hr⟩ := callReference_some h
  have hplain : arguments.join ≠ some [] := by
    rcases readOptional_ok.mp harguments with ⟨-, rfl⟩ | ⟨list, texts, -, htexts, rfl⟩
    · nofun
    · exact argumentTexts_ne_nil htexts
  rcases hr with ⟨-, rfl⟩ | ⟨assignment, -, hs⟩
  · exact hplain
  · obtain ⟨value, whole, -, -, rfl⟩ := setterReference_ok hs
    cases value with
    | none => exact hplain
    | some value => nofun

theorem commandReference_formed {source : Source} {node : Node} {reference : Reference}
    (h : node.commandReference source = .ok reference) : reference.Formed := by
  obtain ⟨segments, text, -, -, rfl⟩ := commandReference_ok h
  refine ⟨?_, fun _ => ⟨rfl, rfl⟩⟩
  cases segments <;> simp

theorem bareReference_formed (source : Source) (node : Node) (name : String) :
    (node.bareReference source name).Formed :=
  ⟨nofun, nofun⟩

theorem Reports.formed {source : Source} {parent : Option Node} {node : Node}
    {reference : Reference} (h : Reports source parent node reference) : reference.Formed := by
  cases h with
  | call hc => exact callReference_formed hc
  | command hc => exact commandReference_formed hc
  | bare => exact bareReference_formed source node _

end Node

theorem Extraction.ofText_formed {filter : Filter} {limit : Nat} {parse : String → Option Node}
    {text : String} {refs : List Reference}
    (h : (ofText filter limit parse text).result = .ok refs) {reference : Reference}
    (hr : reference ∈ refs) : reference.Formed ∧ filter.accepts reference = true := by
  obtain ⟨tree, -, hfound⟩ := mem_ofText h hr
  obtain ⟨parent, node, scopes, steps, hv, hmem⟩ := Node.mem_walk hfound
  obtain ⟨hreports, haccepted⟩ := hv.reports hmem
  exact ⟨hreports.formed, haccepted⟩

/-! ## What records say -/

/-- What every record promises, where the file that it comes from is placed by `info`. -/
structure Record.Proper (info : FileInfo) (record : Record) : Prop where
  bareName : record.baseType = none → record.fullName = record.name
  dottedName : ∀ base, record.baseType = some base → record.fullName = base ++ "." ++ record.name
  arguments : record.arguments ≠ some []
  start : record.range.start.fileInfo = info
  stop : record.range.stop.fileInfo = info
  firstRow : 1 ≤ record.range.start.row
  ordered : record.range.start.row < record.range.stop.row ∨
    record.range.start.row = record.range.stop.row ∧
      record.range.start.column ≤ record.range.stop.column

theorem Record.ofReference_ok {reference : Reference} {info : FileInfo} {record : Record}
    (h : ofReference reference info = .ok record) :
    (1 ≤ reference.span.line ∧ reference.span.Ordered) ∧
      record =
        { kind := .functionDeclRefExpr, name := reference.name, baseType := reference.qualifier
          fullName := reference.fullName, arguments := reference.arguments
          source := reference.text
          range :=
            ⟨⟨reference.span.line, reference.span.column, info⟩,
              ⟨reference.span.lastLine, reference.span.lastColumn, info⟩⟩ } := by
  unfold ofReference at h
  simp only at h
  split at h
  · cases h
  · rename_i hproper
    cases h
    obtain ⟨hline, horder⟩ := not_or.mp hproper
    exact ⟨⟨Nat.one_le_iff_ne_zero.mpr hline, not_not.mp horder⟩, rfl⟩

theorem Record.proper_of_formed {reference : Reference} {info : FileInfo} {record : Record}
    (hformed : reference.Formed) (h : ofReference reference info = .ok record) :
    record.Proper info := by
  obtain ⟨⟨hline, hordered⟩, rfl⟩ := ofReference_ok h
  refine
    { bareName := fun hnone => ?_, dottedName := fun base hbase => ?_
      arguments := hformed.arguments, start := rfl, stop := rfl, firstRow := hline
      ordered := hordered }
  · simp only at hnone
    simp only [Reference.fullName, CallSift.fullName, hnone]
  · simp only at hbase
    simp only [Reference.fullName, CallSift.fullName, hbase]

namespace Analyzer

variable {analyzer : Analyzer} {setting : Setting} {fs : FileSystem} {request : Request}
  {outcome : Outcome}

/-- A record of a file is that of one of the file's references. -/
theorem mem_records {file root : Path} {references : List Reference} {found : List Record}
    (h : records file root references = .ok found) {record : Record} (hr : record ∈ found) :
    ∃ reference ∈ references, Record.ofReference reference (.of file root) = .ok record := by
  obtain ⟨reference, hmem, hrecord⟩ := (mapM_ok h).2 record hr
  exact ⟨reference, hmem, mapError_eq_ok.mp hrecord⟩

theorem parseFile_formed {workingDirectory file : Path} {references : List Reference}
    (h : analyzer.parseFile fs workingDirectory file = .ok references) {reference : Reference}
    (hr : reference ∈ references) :
    reference.Formed ∧ analyzer.filter.accepts reference = true := by
  obtain ⟨text, -, hresult⟩ := parseFile_eq_ok.mp h
  exact Extraction.ofText_formed hresult hr

theorem analyzeAt_allowList {workingDirectory place : Path}
    (h : (analyzer.analyzeAt fs workingDirectory request place).result = .ok outcome) :
    outcome.package.allowList = analyzer.allowList := by
  unfold analyzeAt at h
  split at h
  · cases h
  · cases h
    rfl

/-- The records of a file come from the references that the walk found in it, and say of them what
records should. -/
theorem mem_fileRecords {workingDirectory root file : Path} {found : List Record}
    (h : analyzer.fileRecords fs workingDirectory root file = .ok found) {record : Record}
    (hr : record ∈ found) :
    record.Proper (.of file root) ∧
      analyzer.filter.acceptsName record.baseType record.name = true ∧
      ∃ references, analyzer.parseFile fs workingDirectory file = .ok references ∧
        ∃ reference ∈ references, Record.ofReference reference (.of file root) = .ok record := by
  obtain ⟨references, hreferences, hrecords⟩ := bind_eq_ok.mp h
  obtain ⟨reference, hmem, hrecord⟩ := mem_records hrecords hr
  obtain ⟨hformed, haccepted⟩ := parseFile_formed hreferences hmem
  refine ⟨Record.proper_of_formed hformed hrecord, ?_, references, hreferences, reference, hmem,
    hrecord⟩
  obtain ⟨-, rfl⟩ := Record.ofReference_ok hrecord
  exact haccepted

/-- **Provenance.** An analysis that succeeds answers one package, with the allow-list it was
given. Each of its records is the record of a reference in one of the inputs that were found, and
proper for the place of this input below the root; and it passes the filter made anew from the
allow-list that the package holds. The record of a backtick literal has the one name and no
receiver. -/
theorem records_have_origin (h : (analyzer.analyze setting fs request).result = .ok outcome) :
    ∃ package, outcome.results.packages = [package] ∧ package.allowList = analyzer.allowList ∧
      ∃ seen place set, LooksAt setting fs request seen place ∧
        seen.discover setting.workingDirectory language place request.root = .ok set ∧
        (∀ record ∈ package.records,
          (∃ file ∈ set.inputs, record.Proper (.of file set.root) ∧
            ∃ references, analyzer.parseFile seen setting.workingDirectory file = .ok references ∧
              ∃ reference ∈ references,
                Record.ofReference reference (.of file set.root) = .ok record) ∧
          ∀ list, package.allowList = some list →
            (Filter.ofAllowList list).acceptsName record.baseType record.name = true) ∧
        ∀ file ∈ set.inputs, ∀ references,
          analyzer.parseFile seen setting.workingDirectory file = .ok references →
          ∀ reference ∈ references, reference.shape = .inlineExecution →
          ∀ record, Record.ofReference reference (.of file set.root) = .ok record →
            record.name = commandName ∧ record.baseType = none := by
  obtain ⟨seen, place, hlooks, hat⟩ := analyze_ok h
  obtain ⟨set, hset, haccounts⟩ := analyzeAt_ok hat
  have hlist : outcome.package.allowList = analyzer.allowList := analyzeAt_allowList hat
  refine ⟨outcome.package, rfl, hlist, seen, place, set, hlooks, hset, ?_, ?_⟩
  · intro record hrecord
    rw [haccounts.records] at hrecord
    obtain ⟨file, hfile, hrecord⟩ := List.mem_flatMap.mp hrecord
    cases hresult : analyzer.fileRecords seen setting.workingDirectory set.root file with
    | error fault => simp [hresult] at hrecord
    | ok found =>
      simp only [hresult] at hrecord
      obtain ⟨hproper, haccepted, horigin⟩ := mem_fileRecords hresult hrecord
      refine ⟨⟨file, hfile, hproper, horigin⟩, fun list hsome => ?_⟩
      rw [hlist] at hsome
      rwa [filter, hsome] at haccepted
  · intro file _ references hreferences reference hmem hshape record hrecord
    obtain ⟨hformed, -⟩ := parseFile_formed hreferences hmem
    obtain ⟨-, rfl⟩ := Record.ofReference_ok hrecord
    exact hformed.command hshape

/-- Wants one call and all commands. -/
def choosyAnalyzer : Analyzer where
  allowList := some
    { apis :=
        [⟨.functionDeclRefExpr, "f", none, none, none⟩,
         ⟨.functionDeclRefExpr, "builtin_xstring", some "", none, none⟩]
      funcOnly := false, saveFeature := false, smtFormula := none }
  limit := 9
  parse := fun text => if text = "π=1\n{π};def m;f(π)`l`" then some Node.shortTree else none

def shortFiles : FileSystem where
  entries :=
    [(["app"], .directory .all),
     (["app", "a.rb"], .file "π=1\n{π};def m;f(π)`l`".toUTF8 .all)]
  sorted := by decide

def shortRecords : List Record :=
  let file : FileInfo := ⟨"a.rb", ".", "a.rb", "/app"⟩
  [⟨.functionDeclRefExpr, "f", none, "f", some ["π"], "f(π)", ⟨⟨2, 10, file⟩, ⟨2, 14, file⟩⟩⟩,
   ⟨.functionDeclRefExpr, "builtin_xstring", none, "builtin_xstring", none, "`l`",
     ⟨⟨2, 14, file⟩, ⟨2, 17, file⟩⟩⟩]

def shortOutcome : Outcome where
  package :=
    { name := "app", version := none, language := .ruby, allowList := choosyAnalyzer.allowList
      records := shortRecords }
  diagnostics := []
  composition := ⟨[⟨"/app/a.rb", 2, true⟩]⟩
  filesAnalyzed := 1

set_option maxRecDepth 8000 in
/-- A call and a literal pass the filter, and an argument between them does not. Both records are
proper for their file. -/
theorem chosen_records_have_origin :
    (choosyAnalyzer.analyze plainSetting shortFiles mixedRequest).result = .ok shortOutcome ∧
    ∀ record ∈ shortRecords, record.Proper ⟨"a.rb", ".", "a.rb", "/app"⟩ ∧
      choosyAnalyzer.filter.acceptsName record.baseType record.name = true := by
  have hanalyze :
      (choosyAnalyzer.analyze plainSetting shortFiles mixedRequest).result = .ok shortOutcome := by
    rfl
  have hnone : archive? shortFiles ⟨"/"⟩ ⟨"/app"⟩ = none := by rfl
  have hfound : shortFiles.discover ⟨"/"⟩ language ⟨"/app"⟩ none =
      .ok ⟨⟨"/app"⟩, ⟨"/app"⟩, [⟨"/app/a.rb"⟩], [⟨"/app/a.rb"⟩], []⟩ := by
    rfl
  refine ⟨hanalyze, fun record hrecord => ?_⟩
  obtain ⟨package, hpackage, -, seen, place, set, hlooks, hset, hrecords, -⟩ :=
    records_have_origin hanalyze
  obtain rfl : shortOutcome.package = package := by simpa [Outcome.results] using hpackage
  obtain ⟨⟨file, hfile, hproper, -⟩, haccepted⟩ := hrecords record hrecord
  cases hlooks with
  | unpacked hkind => exact absurd (hnone.symm.trans hkind) nofun
  | input =>
    obtain rfl := Except.ok.inj (hfound.symm.trans hset)
    obtain rfl := List.mem_singleton.mp hfile
    exact ⟨hproper, haccepted _ rfl⟩

end Analyzer
end CallSift
