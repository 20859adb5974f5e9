import CallSift.Proofs.Analysis.Accounting
import CallSift.Proofs.Walk.Extents

/-!
# Every reference has a record

A record needs an extent that has a first line and does not end before it begins. An
extent is taken where a text was sliced from the source, so it is such a one, and
making the records of a file never fails.

* `ofText_ordered`: the references of a text have proper extents.
* `fileRecords_error`: so a file fails where it is read, parsed or walked.
* `references_have_records`: no diagnostic complains of a range.
-/
namespace CallSift

theorem Record.ofReference_total {reference : Reference}
    (h : 1 ≤ reference.span.line ∧ reference.span.Ordered) (info : FileInfo) :
    ∃ record, ofReference reference info = .ok record := by
  unfold ofReference
  have hproper : ¬ (reference.span.line = 0 ∨ ¬ reference.span.Ordered) := by
    rintro (hline | horder)
    · omega
    · exact horder h.2
  simp only [if_neg hproper]
  exact ⟨_, rfl⟩

theorem Extraction.ofSteps_ordered {source : Source} {root : Node} {filter : Filter} {limit : Nat}
    {refs : List Reference} (h : (ofSteps (root.walk source filter limit)).result = .ok refs) :
    ∀ r ∈ refs, 1 ≤ r.span.line ∧ r.span.Ordered :=
  fun _ hr => Node.walk_ordered (mem_findings h hr)

/-- The references of a text are found by the walk over its tree. -/
theorem Extraction.mem_ofText {filter : Filter} {limit : Nat} {parse : String → Option Node}
    {text : String} {refs : List Reference}
    (h : (ofText filter limit parse text).result = .ok refs) {reference : Reference}
    (hr : reference ∈ refs) : ∃ tree, parse text = some tree ∧
      .reference reference ∈ (tree.walk (.ofString text) filter limit).findings := by
  unfold ofText at h
  cases hparse : parse text with
  | none => simp [hparse] at h
  | some tree =>
    simp only [hparse, run] at h
    split at h
    · cases h
    · exact ⟨tree, rfl, mem_findings h hr⟩

theorem Extraction.ofText_ordered {filter : Filter} {limit : Nat} {parse : String → Option Node}
    {text : String} {refs : List Reference}
    (h : (ofText filter limit parse text).result = .ok refs) :
    ∀ r ∈ refs, 1 ≤ r.span.line ∧ r.span.Ordered := by
  intro r hr
  obtain ⟨tree, -, hfound⟩ := mem_ofText h hr
  exact Node.walk_ordered hfound

namespace Analyzer

theorem records_total (root file : Path) {refs : List Reference}
    (h : ∀ r ∈ refs, 1 ≤ r.span.line ∧ r.span.Ordered) :
    ∃ found, records file root refs = .ok found := by
  refine mapM_total _ refs fun r hr => ?_
  obtain ⟨record, hrecord⟩ := Record.ofReference_total (h r hr) (.of file root)
  exact ⟨record, by rw [hrecord]; rfl⟩

/-- A file that gives no records has failed before there was a reference. -/
theorem fileRecords_error {analyzer : Analyzer} {fs : FileSystem}
    {workingDirectory root file : Path} {fault : Fault}
    (h : analyzer.fileRecords fs workingDirectory root file = .error fault) :
    fault.stage ≠ .normalize := by
  unfold fileRecords at h
  cases hparse : analyzer.parseFile fs workingDirectory file with
  | error earlier =>
    rw [hparse] at h
    cases h
    exact (parseFile_error hparse).2
  | ok refs =>
    rw [hparse] at h
    obtain ⟨text, -, hresult⟩ := parseFile_eq_ok.mp hparse
    obtain ⟨found, hfound⟩ := records_total root file (Extraction.ofText_ordered hresult)
    cases hfound.symm.trans h

/-- **Normal form.** Every reference that a walk answers begins on a line and does not end
before it begins, so it has a record in every file; hence no diagnostic of an analysis is about
a range. -/
theorem references_have_records :
    (∀ source filter limit (root : Node) refs,
      (Extraction.ofSteps (root.walk source filter limit)).result = .ok refs →
      ∀ r ∈ refs, 1 ≤ r.span.line ∧ r.span.Ordered ∧
        ∀ info, ∃ record, Record.ofReference r info = .ok record) ∧
    ∀ (analyzer : Analyzer) setting fs request outcome,
      (analyzer.analyze setting fs request).result = .ok outcome →
      ∀ d ∈ outcome.diagnostics, d.stage ≠ .normalize := by
  constructor
  · intro source filter limit root refs h r hr
    have hordered := Extraction.ofSteps_ordered h r hr
    exact ⟨hordered.1, hordered.2, Record.ofReference_total hordered⟩
  · intro analyzer setting fs request outcome h d hd
    obtain ⟨seen, place, -, hat⟩ := analyze_ok h
    obtain ⟨set, -, haccounts⟩ := analyzeAt_ok hat
    rw [haccounts.diagnostics] at hd
    obtain ⟨file, -, hfile⟩ := List.mem_filterMap.mp hd
    split at hfile
    · cases hfile
    · cases hfile
      exact fileRecords_error (by assumption)

set_option maxRecDepth 4000 in
/-- A setter's reference, which covers its whole assignment, has a record; and the file that
could not be parsed is the only one complained of. -/
theorem setter_has_record :
    (Extraction.ofSteps (Node.setterTree.walk Node.setterText .passThrough 9)).result =
      .ok Node.setterReferences ∧
    (∀ r ∈ Node.setterReferences, ∀ info, ∃ record, Record.ofReference r info = .ok record) ∧
    (pickyAnalyzer.analyze plainSetting mixedFiles mixedRequest).result = .ok mixedOutcome ∧
    ∀ d ∈ mixedOutcome.diagnostics, d.stage ≠ .normalize := by
  have hwalk : (Extraction.ofSteps (Node.setterTree.walk Node.setterText .passThrough 9)).result =
      .ok Node.setterReferences := by
    rfl
  obtain ⟨hrefs, hruns⟩ := references_have_records
  refine ⟨hwalk, ?_, mixedFiles_analyze, ?_⟩
  · intro r hr
    exact (hrefs _ _ _ _ _ hwalk r hr).2.2
  · exact hruns _ _ _ _ _ mixedFiles_analyze

end Analyzer
end CallSift
