import CallSift.Discovery
import CallSift.Proofs.Path.Names

/-!
# Files below their root

Of a file below its root only the names that lead there show in what is said of it,
apart from the root itself. So two roots make no difference but their own names.

* `isSource_below`: the names say whether a file is a source.
* `FileInfo.of_below`: they say where the file is.
-/
namespace CallSift

namespace Path

theorem dropCommon_append : ∀ base down : List Component,
    dropCommon (base ++ down) base = (down, [])
  | [], [] => rfl
  | [], _ :: _ => rfl
  | component :: base, down => by
    rw [List.cons_append, dropCommon, if_pos rfl]
    exact dropCommon_append base down

theorem relativeTo_append (base down : List Component) :
    relativeTo (base ++ down) base = ofComponents down := by
  rw [relativeTo, dropCommon_append]
  rfl

end Path

section
variable {names : Location} (hsome : names ≠ [])
include hsome

variable (hnames : ∀ name ∈ names, IsName name) (place : Path)
include hnames

theorem fileName?_below : (FileSystem.below place names).fileName? = names.getLast? := by
  obtain ⟨before, last, rfl⟩ : ∃ before last, names = before ++ [last] :=
    ⟨_, _, (List.dropLast_concat_getLast hsome).symm⟩
  rw [Path.fileName?, FileSystem.components_below hnames, Path.fileNameOf?]
  simp [Component.name?]

theorem isSource_below (language : Language) (other : Path) :
    language.isSource (FileSystem.below other names) =
      language.isSource (FileSystem.below place names) := by
  simp only [Language.isSource, Path.extension?, fileName?_below hsome hnames]

/-- What is said of a file below a root. -/
theorem FileInfo.of_below : FileInfo.of (FileSystem.below place names) place =
    { filename := (names.getLast?.map Bytes.text).getD ""
      relpath := shown (.ofComponents (names.dropLast.map .normal))
      file := shown (.ofComponents (names.map .normal))
      directory := place.text } := by
  have hparent : Path.parent? (place.components ++ names.map .normal) =
      some (place.components ++ names.dropLast.map .normal) := by
    have hdown : names.map Component.normal ≠ [] := by simpa using hsome
    rw [List.map_dropLast, ← List.dropLast_append_of_ne_nil hdown, Path.parent?]
    simp [List.getLast?_eq_some_getLast hsome]
  rw [FileInfo.of, fileName?_below hsome hnames, FileSystem.components_below hnames, hparent,
    Option.getD_some, Path.relativeTo_append, Path.relativeTo_append]

end

end CallSift
