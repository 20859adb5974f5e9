import CallSift.Text

/-!
# The pieces of a text

A text cut at a separator falls into pieces that do not contain it. Where a separator
stands, the pieces of what is before it come first, and then those of what follows.

* `splitAt_append`: a text is cut in two at one of its separators.
* `not_mem_of_mem_splitAt` and `splitAt_of_not_mem`: a piece is what has no separator.
-/
namespace CallSift.Text

variable {α : Type} [DecidableEq α] {separator : α}

theorem splitAt_eq_cons (separator : α) (cs : List α) :
    ∃ piece rest, splitAt separator cs = piece :: rest := by
  cases cs with
  | nil => exact ⟨[], [], rfl⟩
  | cons c cs =>
    unfold splitAt
    split
    · exact ⟨_, _, rfl⟩
    · split <;> exact ⟨_, _, rfl⟩

theorem splitAt_separator (cs : List α) :
    splitAt separator (separator :: cs) = [] :: splitAt separator cs := by
  simp [splitAt]

theorem splitAt_cons {c : α} (hc : c ≠ separator) (cs : List α) : ∃ piece rest,
    splitAt separator cs = piece :: rest ∧
      splitAt separator (c :: cs) = (c :: piece) :: rest := by
  obtain ⟨piece, rest, h⟩ := splitAt_eq_cons separator cs
  exact ⟨piece, rest, h, by simp [splitAt, hc, h]⟩

theorem splitAt_append (left right : List α) : splitAt separator (left ++ separator :: right) =
    splitAt separator left ++ splitAt separator right := by
  induction left with
  | nil => exact splitAt_separator right
  | cons c left ih =>
    by_cases hc : c = separator
    · subst hc
      rw [List.cons_append, splitAt_separator, ih, splitAt_separator]
      rfl
    · obtain ⟨piece, rest, hs, hcons⟩ := splitAt_cons hc left
      obtain ⟨_, _, hs', hcons'⟩ := splitAt_cons hc (left ++ separator :: right)
      rw [ih, hs, List.cons_append, List.cons.injEq] at hs'
      rw [List.cons_append, hcons', hcons, ← hs'.1, ← hs'.2]
      rfl

theorem splitAt_of_not_mem {cs : List α} (h : separator ∉ cs) : splitAt separator cs = [cs] := by
  induction cs with
  | nil => rfl
  | cons c cs ih =>
    obtain ⟨hc, hcs⟩ := List.ne_and_not_mem_of_not_mem_cons h
    obtain ⟨piece, rest, hs, hcons⟩ := splitAt_cons (Ne.symm hc) cs
    rw [ih hcs, List.cons.injEq] at hs
    rw [hcons, ← hs.1, ← hs.2]

theorem not_mem_of_mem_splitAt {cs piece : List α} (h : piece ∈ splitAt separator cs) :
    separator ∉ piece := by
  induction cs generalizing piece with
  | nil =>
    obtain rfl := List.mem_singleton.mp h
    exact List.not_mem_nil
  | cons c cs ih =>
    by_cases hc : c = separator
    · subst hc
      rw [splitAt_separator] at h
      rcases List.mem_cons.mp h with rfl | h
      · exact List.not_mem_nil
      · exact ih h
    · obtain ⟨first, rest, hs, hcons⟩ := splitAt_cons hc cs
      rw [hcons] at h
      rcases List.mem_cons.mp h with rfl | h
      · exact List.not_mem_cons_of_ne_of_not_mem (Ne.symm hc) (ih (hs ▸ List.mem_cons_self))
      · exact ih (hs ▸ List.mem_cons_of_mem first h)

end CallSift.Text
