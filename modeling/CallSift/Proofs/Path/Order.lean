import CallSift.Proofs.FileSystem.Order
import CallSift.Proofs.Path.Names
import Mathlib.Data.List.Lex

/-!
# Paths in order

Paths are ordered component by component, and components by their bytes.

* `before_below`: paths below a directory stand in the order of their names.
-/
namespace CallSift

/-- The order of components: the first bytes that differ decide. -/
def Component.Before (a b : Component) : Prop := List.Lex (· < ·) a.bytes.toList b.bytes.toList

theorem Component.Before.irrefl (component : Component) : ¬ component.Before component :=
  List.lex_irrefl UInt8.lt_irrefl _

/-- The order of paths: the first components that differ decide. -/
def Path.Before (a b : Path) : Prop := List.Lex Component.Before a.components b.components

theorem Path.Before.components_ne {a b : Path} (h : a.Before b) : a.components ≠ b.components := by
  intro hsame
  rw [Path.Before, hsame] at h
  exact List.lex_irrefl Component.Before.irrefl b.components h

theorem FileSystem.before_below {names other : Location} (hnames : ∀ name ∈ names, IsName name)
    (hother : ∀ name ∈ other, IsName name) (h : names.Before other) (directory : Path) :
    (below directory names).Before (below directory other) := by
  rw [Path.Before, components_below hnames, components_below hother]
  refine List.Lex.append_left _ ?_ _
  unfold Location.Before at h
  clear hnames hother
  induction h with
  | nil => exact .nil
  | rel hname => exact .rel hname
  | cons _ ih => exact .cons ih

end CallSift
