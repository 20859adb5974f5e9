import CallSift.FileSystem.Basic
import CallSift.Proofs.Lookup

/-!
# Entries in order

Because the entries of a file system are sorted, a location has at most one, which is
what stands there.

* `get?_eq_some_iff`: what stands at a location is its entry.
-/
namespace CallSift

namespace Location

theorem NameBefore.irrefl (name : Bytes) : ¬ NameBefore name name :=
  List.lex_irrefl UInt8.lt_irrefl name.toList

theorem Before.irrefl (location : Location) : ¬ location.Before location :=
  List.lex_irrefl NameBefore.irrefl location

theorem Before.ne {a b : Location} (h : a.Before b) : b ≠ a := by
  rintro rfl
  exact Before.irrefl b h

/-- What locations have in common in front does not matter for their order. -/
theorem Before.of_append : ∀ {top a b : Location}, (top ++ a).Before (top ++ b) → a.Before b
  | [], _, _, h => h
  | name :: top, a, b, h => by
    cases h with
    | rel hname => exact absurd hname (NameBefore.irrefl name)
    | cons h => exact Before.of_append h

end Location

namespace FileSystem

variable {fs : FileSystem}

theorem get?_eq_some_iff {location : Location} {entry : Entry} (h : location ≠ []) :
    fs.get? location = some entry ↔ (location, entry) ∈ fs.entries := by
  rw [get?, if_neg h]
  exact lookup_eq_some_iff_mem (fs.sorted.imp Location.Before.ne)

end FileSystem
end CallSift
