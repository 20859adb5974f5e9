/-!
# Entries found by their keys

Under keys that are all different, what is found is what is there.
-/
namespace CallSift

theorem lookup_eq_some_iff_mem {α β : Type} [BEq α] [LawfulBEq α] {entries : List (α × β)}
    {key : α} {value : β} (h : entries.Pairwise fun a b => b.1 ≠ a.1) :
    entries.lookup key = some value ↔ (key, value) ∈ entries := by
  rw [List.lookup_eq_some_iff]
  constructor
  · rintro ⟨before, after, rfl, -⟩
    exact List.mem_append_right before List.mem_cons_self
  · intro hmem
    obtain ⟨before, after, rfl⟩ := List.append_of_mem hmem
    have hfirst := (List.pairwise_append.mp h).2.2
    exact ⟨before, after, rfl, fun entry hentry =>
      bne_iff_ne.mpr (hfirst entry hentry _ List.mem_cons_self)⟩

end CallSift
