import CallSift.Proofs.FileSystem.Normal
import CallSift.Proofs.Text.Shown

/-!
# Paths as they are shown

A path that is shown has the same slashes, so it has as many components, and each is the
component as it is shown. A name that is no text is taken for another name; the root, a
dot and `..` are not, and no name is taken for them.

* `components_asShown`: the components of a path that is shown.
* `normalize_shown`: they are brought to normal form in the same way.
* `asShown_components_iff`: they are those of the path exactly where the path is a text.
-/
namespace CallSift

open CallSift.Bytes (dot slash)

namespace Bytes

theorem ofText_text (bytes : Bytes) : (bytes.text : Bytes) = ⟨Text.shown bytes.toList⟩ := by
  rw [ofText, Bytes.text, Text.toUTF8_ofBytes]

theorem isText_iff_shown {bytes : Bytes} :
    bytes.IsText ↔ Text.shown bytes.toList = bytes.toList := by
  constructor
  · intro h
    have hsame := h.ofText_text
    rw [ofText_text] at hsame
    exact Bytes.ext_iff.mp hsame
  · intro h
    refine isText_iff.mpr ⟨bytes.text, ?_⟩
    rw [ofText_text, h]

theorem text_append_slash (front rest : Bytes) :
    (front ++ "/" ++ rest).text = front.text ++ "/" ++ rest.text := by
  rw [Bytes.text, toList_append, toList_append, toList_slash, List.append_assoc,
    List.singleton_append]
  exact Text.ofBytes_append_slash front.toList rest.toList

end Bytes

/-- A component as it is shown. -/
def Component.shown : Component → Component
  | .normal name => .normal name.text
  | component => component

namespace Path

/-- The path that is spelled as a path is shown. -/
def asShown (path : Path) : Path := ⟨path.text⟩

theorem asShown_eq (path : Path) : path.asShown = ⟨⟨Text.shown path.bytes.toList⟩⟩ :=
  congrArg Path.mk path.bytes.ofText_text

/-! ## Components -/

/-- Nothing else is shown as a dot, or as two, or not at all. -/
theorem shown_eq_iff {piece dots : List UInt8} (hdots : ∀ byte ∈ dots, byte = dot)
    (hself : Text.shown dots = dots) : Text.shown piece = dots ↔ piece = dots := by
  refine ⟨Text.shown_eq_ascii fun byte hbyte => ?_, fun h => h ▸ hself⟩
  rw [hdots byte hbyte]
  decide

theorem ofPiece?_shown (piece : List UInt8) : Component.ofPiece? (Text.shown piece) =
    (Component.ofPiece? piece).map Component.shown := by
  have hempty : Text.shown piece = [] ↔ piece = [] := shown_eq_iff (by simp) rfl
  have hcurrent : Text.shown piece = [dot] ↔ piece = [dot] := shown_eq_iff (by simp) rfl
  have hparent : Text.shown piece = [dot, dot] ↔ piece = [dot, dot] := shown_eq_iff (by simp) rfl
  unfold Component.ofPiece?
  simp only [hempty, hcurrent, hparent]
  split
  · rfl
  · split
    · rfl
    · rw [Option.map_some, Component.shown, Bytes.ofText_text]

theorem leading_shown (piece : List UInt8) :
    leading (Text.shown piece) = (leading piece).map Component.shown := by
  have hcurrent : Text.shown piece = [dot] ↔ piece = [dot] := shown_eq_iff (by simp) rfl
  unfold leading
  rw [ofPiece?_shown]
  simp only [hcurrent]
  split
  · rfl
  · cases Component.ofPiece? piece <;> rfl

theorem filterMap_shown (pieces : List (List UInt8)) :
    (pieces.map Text.shown).filterMap Component.ofPiece? =
      (pieces.filterMap Component.ofPiece?).map Component.shown := by
  rw [List.filterMap_map, List.map_filterMap]
  exact congrArg (pieces.filterMap ·) (funext ofPiece?_shown)

theorem components_asShown (path : Path) :
    path.asShown.components = path.components.map Component.shown := by
  rw [asShown_eq, components, components, Text.splitAt_shown]
  obtain ⟨first, rest, hpieces⟩ := Text.splitAt_eq_cons slash path.bytes.toList
  rw [hpieces, List.map_cons]
  have hempty : Text.shown first = [] ↔ first = [] := shown_eq_iff (by simp) rfl
  by_cases hproper : first ≠ [] ∨ rest ≠ []
  · rw [componentsOf_cons hproper, componentsOf_cons (by simpa [hempty] using hproper),
      filterMap_shown, List.map_append]
    simp only [hempty]
    split
    · rfl
    · rw [leading_shown]
  · obtain ⟨hnone, hno⟩ := not_or.mp hproper
    rw [Decidable.not_not.mp hnone, Decidable.not_not.mp hno]
    rfl

/-- A path is shown by its own components exactly if it is a text. -/
theorem asShown_components_iff {path : Path} :
    path.asShown.components = path.components ↔ path.bytes.IsText := by
  constructor
  · intro h
    rw [components_asShown] at h
    have hself := List.map_inj_left.mp (h.trans (List.map_id _).symm)
    refine Bytes.isText_iff_shown.mpr (Text.shown_eq_self_of_pieces fun piece hpiece => ?_)
    by_cases hproper : piece ≠ [] ∧ piece ≠ [dot] ∧ piece ≠ [dot, dot]
    · -- the piece is a name among the components
      have hname : Component.ofPiece? piece = some (.normal ⟨piece⟩) :=
        ofPiece?_eq_normal.mpr ⟨hproper, rfl⟩
      have hshown := hself _ (mem_components_of_plainPieces
        (List.mem_filterMap.mpr ⟨piece, hpiece, hname⟩))
      rw [Component.shown, Bytes.ofText_text] at hshown
      exact congrArg Bytes.toList (Component.normal.inj hshown)
    · have hdots : piece = [] ∨ piece = [dot] ∨ piece = [dot, dot] := by
        simpa only [not_and_or, Decidable.not_not] using hproper
      rcases hdots with rfl | rfl | rfl <;> rfl
  · intro h
    rw [asShown, Path.text, h.ofText_text]

/-! ## Behind another path -/

theorem isAbsolute_asShown (path : Path) : path.asShown.isAbsolute = path.isAbsolute := by
  rw [asShown_eq, isAbsolute, isAbsolute]
  cases hbytes : path.bytes.toList with
  | nil => rfl
  | cons byte rest =>
    by_cases hslash : byte = slash
    · subst hslash
      have hfirst := Text.shown_append_slash [] rest
      rw [List.nil_append] at hfirst
      rw [hfirst]
      rfl
    · -- what is shown begins with what the first piece is shown as
      obtain ⟨piece, pieces, -, hpieces⟩ := Text.splitAt_cons hslash rest
      have hshown := Text.splitAt_shown (byte :: rest)
      rw [hpieces, List.map_cons] at hshown
      cases hall : Text.shown (byte :: rest) with
      | nil => simp [hslash]
      | cons first others =>
        have hne : first ≠ slash := by
          rintro rfl
          rw [hall, Text.splitAt_separator, List.cons.injEq] at hshown
          cases (shown_eq_iff (by simp) rfl).mp hshown.1.symm
        simp [hslash, hne]

theorem bytes_asShown_ne {path : Path} (h : path.bytes ≠ .empty) : path.asShown.bytes ≠ .empty := by
  rw [asShown_eq]
  intro hempty
  have hnil := (shown_eq_iff (by simp) rfl).mp (Bytes.ext_iff.mp hempty)
  exact h (Bytes.toList_eq_nil.mp hnil)

/-- A relative path behind another is shown behind it. -/
theorem components_push_asShown {path relative : Path} (hpath : path.bytes ≠ .empty)
    (h : relative.isAbsolute = false) :
    (path.asShown.push relative.asShown).components =
      (path.push relative).components.map Component.shown := by
  rw [components_push_relative (bytes_asShown_ne hpath) (by rwa [isAbsolute_asShown]),
    components_push_relative hpath h, List.map_append, components_asShown, asShown_eq relative,
    Text.splitAt_shown, filterMap_shown]

/-! ## Normal form -/

theorem parent?_shown (components : List Component) :
    parent? (components.map Component.shown) =
      (parent? components).map (List.map Component.shown) := by
  unfold parent?
  rw [List.getLast?_map]
  cases components.getLast? with
  | none => rfl
  | some last => cases last <;> simp [Component.shown, List.map_dropLast]

theorem fold_shown (kept : List Component) (component : Component) :
    fold (kept.map Component.shown) component.shown =
      (fold kept component).map Component.shown := by
  cases component with
  | parent =>
    simp only [Component.shown, fold, parent?_shown]
    cases parent? kept <;> simp [Component.shown]
  | _ => simp [Component.shown, fold]

theorem foldl_fold_shown (kept components : List Component) :
    (components.map Component.shown).foldl fold (kept.map Component.shown) =
      (components.foldl fold kept).map Component.shown := by
  induction components generalizing kept with
  | nil => rfl
  | cons component rest ih => rw [List.map_cons, List.foldl_cons, fold_shown, ih, List.foldl_cons]

theorem normalize_shown (components : List Component) :
    normalize (components.map Component.shown) = (normalize components).map Component.shown :=
  foldl_fold_shown [] components

end Path
end CallSift
