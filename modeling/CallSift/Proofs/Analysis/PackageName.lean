import CallSift.Proofs.Analysis.Unpacked
import CallSift.Proofs.Archive.Suffix

/-!
# The name of a package

Without a name of its own a package is named after its input. Whether the input
is an archive is asked twice: an analysis unpacks it when its name says so and it
is a file, the package loses the suffix by the name alone.

* `package_name`: the name of a package by the way in which its input was treated.
* `directory_named_as_archive`: a directory loses the suffix as well.
-/
namespace CallSift

/-! ## The last component -/

/-- What ends in a name ends in it in normal form. -/
theorem Path.fileNameOf?_normalize (front : List Component) (name : Bytes) :
    fileNameOf? (normalize (front ++ [.normal name])) = some name := by
  simp [normalize, List.foldl_append, fold, fileNameOf?, Component.name?]

/-- A path that ends in a name ends in it from any working directory in normal form. -/
theorem Path.fileNameOf?_absolute? {workingDirectory path : Path} {name : Bytes}
    {components : List Component} (hname : path.fileName? = some name)
    (h : absolute? workingDirectory path = some components) :
    fileNameOf? components = some name := by
  obtain ⟨front, hfront⟩ : ∃ front, path.components = front ++ [.normal name] := by
    obtain ⟨last, hlast, hnormal⟩ := Option.bind_eq_some_iff.mp hname
    cases last <;> simp only [Component.name?, reduceCtorEq, Option.some.injEq] at hnormal
    subst hnormal
    obtain ⟨front, hfront⟩ := List.getLast?_eq_some_iff.mp hlast
    exact ⟨front, hfront⟩
  unfold absolute? at h
  split at h
  · cases h
  · split at h
    · cases h
      rw [hfront]
      exact fileNameOf?_normalize front name
    · cases h
      -- a dot in front is never the name itself
      obtain ⟨kept, hkept⟩ : ∃ kept, withoutCurrent path.components = kept ++ [.normal name] := by
        rw [hfront]
        cases front with
        | nil => exact ⟨[], rfl⟩
        | cons first front =>
          cases first
          case current => exact ⟨front, rfl⟩
          all_goals exact ⟨_ :: front, rfl⟩
      rw [hkept, ← List.append_assoc]
      exact fileNameOf?_normalize _ name

namespace Analyzer

variable {analyzer : Analyzer} {setting : Setting} {fs : FileSystem} {request : Request}
  {outcome : Outcome}

/-- A package without a name of its own is named after its input. -/
theorem name_of_analyze (h : (analyzer.analyze setting fs request).result = .ok outcome)
    (hnone : request.packageName = none) :
    outcome.package.name = packageName setting.workingDirectory request.input := by
  obtain ⟨seen, place, -, hat⟩ := analyze_ok h
  unfold analyzeAt at hat
  split at hat
  · cases hat
  · cases hat
    simp [Outcome.ofReports, hnone]

/-- **The name of a package.** Of an input that ends in a name, an archive that is unpacked gives
its package this name without the suffix. What is analyzed as it lies gives it the whole name
exactly when that is not the name of an archive, and otherwise, as for a directory of
such a name, loses the suffix as well. A name that is no text is no archive's, and in its place
the whole path is shown. -/
theorem package_name {components : List Component} {last : Bytes}
    (h : (analyzer.analyze setting fs request).result = .ok outcome)
    (hnone : request.packageName = none)
    (hinput : Path.absolute? setting.workingDirectory request.input = some components)
    (hlast : Path.fileNameOf? components = some last) :
    (∀ kind, archive? fs setting.workingDirectory request.input = some kind →
      ∃ name : String, last = name ∧ kind.Cuts name outcome.package.name) ∧
    (archive? fs setting.workingDirectory request.input = none → ∀ name : String, last = name →
      (outcome.package.name = name ↔ ArchiveKind.ofName? name = none) ∧
      ∀ kind, ArchiveKind.ofName? name = some kind → kind.Cuts name outcome.package.name) ∧
    (¬ last.IsText → outcome.package.name = (Path.ofComponents components).text) := by
  have hname : ∀ name : String, last = name → outcome.package.name =
      ((ArchiveKind.ofName? name).map fun kind => kind.stem name).getD name := by
    rintro name rfl
    rw [name_of_analyze h hnone]
    simp only [packageName, hinput, Option.getD_some, hlast, Option.bind_some, Bytes.text?_ofText]
    cases ArchiveKind.ofName? name <;> rfl
  have hcuts : ∀ name : String, last = name → ∀ kind, ArchiveKind.ofName? name = some kind →
      kind.Cuts name outcome.package.name := by
    intro name heq kind hkind
    rw [hname name heq, hkind]
    exact ArchiveKind.stem_cuts hkind
  refine ⟨?_, ?_, ?_⟩
  · intro kind hkind
    -- only the name as it was written decides, and the normal form ends in the same
    obtain ⟨hof, -⟩ := Option.filter_eq_some_iff.mp hkind
    obtain ⟨name, hfile, hofName⟩ := ArchiveKind.of?_eq_some.mp hof
    have hsame := Path.fileNameOf?_absolute? hfile hinput
    rw [hlast, Option.some.injEq] at hsame
    exact ⟨name, hsame, hcuts name hsame kind hofName⟩
  · intro _ name heq
    refine ⟨?_, hcuts name heq⟩
    cases hkind : ArchiveKind.ofName? name with
    | none => simp [hname name heq, hkind]
    | some kind =>
      simp only [reduceCtorEq, iff_false]
      exact (hcuts name heq kind hkind).ne
  · intro hbroken
    have hnoText : last.text? = none := Option.not_isSome_iff_eq_none.mp hbroken
    rw [name_of_analyze h hnone]
    simp only [packageName, hinput, Option.getD_some, hlast, Option.bind_some, hnoText]

/-- A directory is named as it is called, and an archive that is unpacked loses its suffix. -/
theorem app_and_note_named :
    (pickyAnalyzer.analyze plainSetting mixedFiles mixedRequest).result = .ok mixedOutcome ∧
    mixedOutcome.package.name = "app" ∧
    ∃ outcome,
      (pickyAnalyzer.analyze Note.setting (Note.files Note.tarGz)
        (Note.request ⟨"/x.tgz"⟩)).result = .ok outcome ∧
      ArchiveKind.tarGz.Cuts "x.tgz" outcome.package.name := by
  refine ⟨mixedFiles_analyze, ?_, ?_⟩
  · obtain ⟨-, hplain, -⟩ := package_name mixedFiles_analyze rfl rfl rfl
    exact (hplain (by rfl) "app" rfl).1.mpr (by decide)
  · obtain ⟨outcome, hok, -⟩ := Note.analyze_files Note.decompress_tarGz
    obtain ⟨hunpacked, -⟩ := package_name hok rfl rfl rfl
    obtain ⟨name, hname, hcuts⟩ := hunpacked .tarGz (by rfl)
    obtain rfl : "x.tgz" = name := Bytes.ofText_injective hname
    exact ⟨outcome, hok, hcuts⟩

/-- A directory that is called like an archive. -/
def gemDirectory : FileSystem where
  entries := [(["x.gem"], .directory .all)]
  sorted := by decide

/-- It is analyzed as the directory it is, and its package loses the suffix. -/
theorem directory_named_as_archive :
    archive? gemDirectory plainSetting.workingDirectory ⟨"/x.gem"⟩ = none ∧
    gemDirectory.directory? plainSetting.workingDirectory ⟨"/x.gem"⟩ =
      some (["x.gem"] : Location) ∧
    ∃ outcome,
      (pickyAnalyzer.analyze plainSetting gemDirectory ⟨⟨"/x.gem"⟩, none, none, none⟩).result =
        .ok outcome ∧
      outcome.package.name = "x" := by
  exact ⟨by rfl, by rfl, _, rfl, rfl⟩

end Analyzer
end CallSift
