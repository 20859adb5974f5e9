import CallSift.Proofs.Analysis.Counts
import CallSift.Proofs.Run.Ending

/-!
# What a successful run persists

The results are written first and the composition after them, and neither write looks at
the other. Both can be read back, unless they go to one file, which then holds the
composition alone.

* `Persists`: a file from which a value can be read back.
* `successful_run_persists`: what is in the files after a run.
-/
namespace CallSift

namespace FileSystem

/-- Two paths lead to the same place. -/
def SameFile (fs : FileSystem) (workingDirectory path other : Path) : Prop :=
  ∃ location entry, fs.stat workingDirectory path = .ok (location, entry) ∧
    fs.stat workingDirectory other = .ok (location, entry)

theorem not_sameFile {fs : FileSystem} {workingDirectory path other : Path}
    {location otherLocation : Location}
    (h : (fs.stat workingDirectory path).map Prod.fst = .ok location)
    (hother : (fs.stat workingDirectory other).map Prod.fst = .ok otherLocation)
    (hne : location ≠ otherLocation) : ¬ fs.SameFile workingDirectory path other := by
  rintro ⟨found, entry, hpath, hfound⟩
  rw [hpath] at h
  rw [hfound] at hother
  exact hne (Except.ok.inj (h.symm.trans hother))

/-- A path leads to a file that holds the document of a value, and the value is read back from what
can be read there. -/
structure Persists {α : Type} (fs : FileSystem) (workingDirectory path : Path)
    (codec : Json.Codec α) (value : α) : Prop where
  file : ∃ location permissions, fs.stat workingDirectory path =
      .ok (location, .file (codec.encode value).document permissions) ∧
    (permissions.read = true →
      fs.readText workingDirectory path = .ok ((codec.encode value).pretty ++ "\n"))
  decoded : (Json.read? ((codec.encode value).pretty ++ "\n")).bind (codec.decode .json) =
    some value

variable {fs : FileSystem} {workingDirectory path : Path} {location : Location}
  {permissions : Permissions}

theorem readText_of_stat {text : String}
    (h : fs.stat workingDirectory path = .ok (location, .file text.toUTF8 permissions))
    (hread : permissions.read = true) : fs.readText workingDirectory path = .ok text := by
  have hdecoded : String.fromUTF8? text.toByteArray = some text := by
    unfold String.fromUTF8?
    rw [dif_pos text.isValidUTF8]
    rfl
  simp [readText, read, h, Entry.permissions, hread, hdecoded]

theorem persists_of_stat {α : Type} {codec : Json.Codec α} {value : α} (hkeeps : codec.Keeps value)
    (h : fs.stat workingDirectory path =
      .ok (location, .file (codec.encode value).document permissions)) :
    fs.Persists workingDirectory path codec value :=
  ⟨⟨location, permissions, h, readText_of_stat h⟩, hkeeps.roundTrips.2⟩

end FileSystem

namespace Analyzer

open FileSystem

/-- **Persisted outcomes.** After a run has succeeded, the composition can be read back from its
file, if it was asked for, and the results from theirs unless both paths lead to one file. That
file has lost the results and holds the composition. -/
theorem successful_run_persists (analyzer : Analyzer) (setting : Setting) (fs : FileSystem)
    (request : Request) (outputs : Outputs) {outcome : Outcome}
    (hcounts : ∀ seen place, LooksAt setting fs request seen place → seen.IsCountable)
    (h : (analyzer.run setting fs request outputs).result = .ok outcome) :
    let left := (analyzer.run setting fs request outputs).fileSystem
    ((∀ composition, outputs.composition = some composition →
        ¬ left.SameFile setting.workingDirectory outputs.results composition) →
      left.Persists setting.workingDirectory outputs.results PackageResults.codec
        outcome.results) ∧
    ∀ composition, outputs.composition = some composition →
      left.Persists setting.workingDirectory composition Composition.codec
        outcome.composition ∧
      (left.SameFile setting.workingDirectory outputs.results composition →
        left.Persists setting.workingDirectory outputs.results Composition.codec
          outcome.composition) := by
  intro left
  have hends := analyzer.run_ends setting fs request outputs
  rw [h] at hends
  change Ends _ _ _ left _ at hends
  generalize left = left at hends
  have hkeeps : ∀ {outcome}, (analyzer.analyze setting fs request).result = .ok outcome →
      PackageResults.codec.Keeps outcome.results ∧
        Composition.codec.Keeps outcome.composition := by
    intro outcome hanalysis
    obtain ⟨hresults, hcomposition⟩ := outcome_inRange hcounts hanalysis
    exact ⟨PackageResults.keeps hresults, Composition.keeps hcomposition⟩
  cases hends with
  | written hanalysis hasked hresults =>
    refine ⟨fun _ => persists_of_stat (hkeeps hanalysis).1 (hresults.stat _), ?_⟩
    intro composition hsome
    cases hasked.symm.trans hsome
  | @bothWritten _ composition target last permissions lastPermissions hanalysis hasked hresults
      hcomposition =>
    obtain ⟨hkeepsResults, hkeepsComposition⟩ := hkeeps hanalysis
    have hlast := hcomposition.stat outcome.composition.encode.document
    have hfirst := hcomposition.accepts.stat_insert outcome.composition.encode.document
      (hresults.stat outcome.results.encode.document)
    by_cases hsame : target = last
    · rw [if_pos hsame] at hfirst
      refine ⟨fun hapart => absurd ⟨last, _, hsame ▸ hfirst, hlast⟩ (hapart _ hasked), ?_⟩
      intro other hother
      obtain rfl := Option.some.inj (hasked.symm.trans hother)
      exact ⟨persists_of_stat hkeepsComposition hlast,
        fun _ => persists_of_stat hkeepsComposition hfirst⟩
    · rw [if_neg hsame] at hfirst
      refine ⟨fun _ => persists_of_stat hkeepsResults hfirst, ?_⟩
      intro other hother
      obtain rfl := Option.some.inj (hasked.symm.trans hother)
      refine ⟨persists_of_stat hkeepsComposition hlast, ?_⟩
      rintro ⟨location, entry, hresult, hother⟩
      obtain ⟨rfl, -⟩ := Prod.mk.inj (Except.ok.inj (hresult.symm.trans hfirst))
      obtain ⟨rfl, -⟩ := Prod.mk.inj (Except.ok.inj (hother.symm.trans hlast))
      exact absurd rfl hsame

theorem mixedFiles_isCountable : mixedFiles.IsCountable := by
  have hall : ∀ e ∈ mixedFiles.entries, ∀ content permissions,
      e.2 = .file content permissions → content.size + 1 < Json.natBound := by
    simp only [mixedFiles, List.forall_mem_cons, List.not_mem_nil, false_implies, implies_true,
      and_true]
    refine ⟨?_, ?_, ?_, ?_⟩ <;> rintro _ _ ⟨⟩ <;> decide
  intro location content permissions hfile
  by_cases hroot : location = []
  · subst hroot
    cases hfile
  · exact hall _ ((get?_eq_some_iff hroot).mp hfile) _ _ rfl

/-- A run that writes its composition to a path. -/
def mixedRun (composition : Path) : Activity Outcome :=
  pickyAnalyzer.run plainSetting mixedFiles mixedRequest ⟨⟨"/out"⟩, some composition⟩

/-- Results and composition in two files, and both in one. -/
theorem mixed_run_persists :
    ((mixedRun ⟨"/c"⟩).result = .ok mixedOutcome ∧
      (mixedRun ⟨"/c"⟩).fileSystem.Persists ⟨"/"⟩ ⟨"/out"⟩ PackageResults.codec
        mixedOutcome.results ∧
      (mixedRun ⟨"/c"⟩).fileSystem.Persists ⟨"/"⟩ ⟨"/c"⟩ Composition.codec
        mixedOutcome.composition) ∧
    (mixedRun ⟨"/./out"⟩).result = .ok mixedOutcome ∧
      (mixedRun ⟨"/./out"⟩).fileSystem.Persists ⟨"/"⟩ ⟨"/out"⟩ Composition.codec
        mixedOutcome.composition := by
  have hcounts : ∀ seen place, LooksAt plainSetting mixedFiles mixedRequest seen place →
      seen.IsCountable := by
    intro seen place hlooks
    have hnone : archive? mixedFiles ⟨"/"⟩ ⟨"/app"⟩ = none := by rfl
    cases hlooks with
    | input => exact mixedFiles_isCountable
    | unpacked hkind => cases hnone.symm.trans hkind
  constructor
  case left =>
    have hresult : (mixedRun ⟨"/c"⟩).result = .ok mixedOutcome := by rfl
    have hfirst : ((mixedRun ⟨"/c"⟩).fileSystem.stat ⟨"/"⟩ ⟨"/out"⟩).map Prod.fst =
        .ok ["out"] := by
      rfl
    have hlast : ((mixedRun ⟨"/c"⟩).fileSystem.stat ⟨"/"⟩ ⟨"/c"⟩).map Prod.fst = .ok ["c"] := by
      rfl
    have hapart : ¬ (mixedRun ⟨"/c"⟩).fileSystem.SameFile ⟨"/"⟩ ⟨"/out"⟩ ⟨"/c"⟩ := by
      rintro ⟨location, entry, hout, hc⟩
      rw [hout] at hfirst
      rw [hc, hfirst] at hlast
      simp at hlast
    obtain ⟨hresults, hcomposition⟩ := successful_run_persists pickyAnalyzer plainSetting
      mixedFiles mixedRequest ⟨⟨"/out"⟩, some ⟨"/c"⟩⟩ hcounts hresult
    refine ⟨hresult, hresults ?_, (hcomposition _ rfl).1⟩
    rintro _ ⟨⟩
    exact hapart
  case right =>
    have hresult : (mixedRun ⟨"/./out"⟩).result = .ok mixedOutcome := by rfl
    have hsame : (mixedRun ⟨"/./out"⟩).fileSystem.stat ⟨"/"⟩ ⟨"/out"⟩ =
        (mixedRun ⟨"/./out"⟩).fileSystem.stat ⟨"/"⟩ ⟨"/./out"⟩ := by
      rfl
    obtain ⟨-, hcomposition⟩ := successful_run_persists pickyAnalyzer plainSetting
      mixedFiles mixedRequest ⟨⟨"/out"⟩, some ⟨"/./out"⟩⟩ hcounts hresult
    obtain ⟨hpersists, hlost⟩ := hcomposition _ rfl
    obtain ⟨location, permissions, hstat, -⟩ := hpersists.file
    exact ⟨hresult, hlost ⟨location, _, hsame.trans hstat, hstat⟩⟩

end Analyzer
end CallSift
