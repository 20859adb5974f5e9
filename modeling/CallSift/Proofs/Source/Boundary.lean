import CallSift.Proofs.Text.Bytes
import CallSift.Source

/-!
# Offsets between characters

An offset is a boundary when it lies between two characters of the source, or at one
of its ends.

* `slice?_of_boundary`: the text between two boundaries can be sliced.
-/
namespace CallSift.Source

open Text

/-- The offset lies between two characters. -/
def Boundary (source : Source) (offset : Nat) : Prop :=
  ∃ pre post, source.chars = pre ++ post ∧ byteLength pre = offset

theorem boundary_iff {source : Source} {offset : Nat} :
    source.Boundary offset ↔ (takeBytes? source.chars offset).isSome := by
  constructor
  · rintro ⟨pre, post, hchars, rfl⟩
    rw [hchars, takeBytes?_append]; rfl
  · intro h
    obtain ⟨pre, hpre⟩ := Option.isSome_iff_exists.mp h
    obtain ⟨post, hchars, hlength⟩ := takeBytes?_eq_some hpre
    exact ⟨pre, post, hchars, hlength⟩

instance (source : Source) (offset : Nat) : Decidable (source.Boundary offset) :=
  decidable_of_iff _ boundary_iff.symm

/-- A slice between two boundaries succeeds. -/
theorem slice?_of_boundary {source : Source} {start stop : Nat} (hstart : source.Boundary start)
    (hstop : source.Boundary stop) (hle : start ≤ stop) :
    ∃ text, source.slice? start stop = some text := by
  obtain ⟨pre, rest, hchars, rfl⟩ := hstart
  obtain ⟨long, post, hlong, rfl⟩ := hstop
  have hprefix : pre <+: long :=
    prefix_of_byteLength_le ⟨rest, hchars.symm⟩ ⟨post, hlong.symm⟩ hle
  obtain ⟨mid, rfl⟩ := hprefix
  have hrest : rest = mid ++ post := by
    rw [hchars, List.append_assoc] at hlong
    exact List.append_cancel_left hlong
  have hmid : byteLength (pre ++ mid) - byteLength pre = byteLength mid := by
    rw [byteLength_append]; omega
  refine ⟨String.ofList mid, ?_⟩
  rw [slice?, if_pos hle, hchars, dropBytes?_append, Option.bind_some, hmid, hrest,
    takeBytes?_append, Option.map_some]

end CallSift.Source
