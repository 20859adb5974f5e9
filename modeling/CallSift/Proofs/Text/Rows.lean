import CallSift.Proofs.Text.Pieces
import Mathlib.Data.List.TakeWhile

/-!
# Rows and columns

A place between two characters of a text is given by what lies before it, or by a
row and a column: the line feeds before it and the characters since the last one.

* `splitAt_place`: the row is a line of the text, and the column lies on it.
* `cut_place`: what lies between two places is the cut between their rows and
  columns.
-/
namespace CallSift.Text

/-- What stands in the lines from a column of one row up to a column of another,
the latter excluded. Whole lines in between keep their line feeds. -/
def cut : List (List Char) → Nat → Nat → Nat → Nat → List Char
  | line :: _, 0, column, 0, lastColumn => (line.take lastColumn).drop column
  | line :: rest, 0, column, lastRow + 1, lastColumn =>
    line.drop column ++ '\n' :: cut rest 0 0 lastRow lastColumn
  | _ :: rest, row + 1, column, lastRow + 1, lastColumn => cut rest row column lastRow lastColumn
  | _, _, _, _, _ => []

/-! ## The last line -/

theorem lastLine_suffix (cs : List Char) : lastLine cs <:+ cs := by
  have h := List.takeWhile_prefix (fun c => decide (c ≠ '\n')) (l := cs.reverse)
  rw [← List.reverse_suffix, List.reverse_reverse] at h
  exact h

/-- What follows on the last line makes it longer. -/
theorem lastLine_append (pre : List Char) {mid : List Char} (h : mid.count '\n' = 0) :
    lastLine (pre ++ mid) = lastLine pre ++ mid := by
  have hall : ∀ c ∈ mid.reverse, decide (c ≠ '\n') = true := by
    intro c hc
    have hne : c ≠ '\n' := by
      rintro rfl
      exact List.count_eq_zero.mp h (List.mem_reverse.mp hc)
    simpa using hne
  unfold lastLine
  rw [List.reverse_append, List.takeWhile_append_of_pos hall, List.reverse_append,
    List.reverse_reverse]

theorem lastLine_of_count {cs : List Char} (h : cs.count '\n' = 0) : lastLine cs = cs :=
  lastLine_append [] h

/-- A character in front does not touch the last line when a line feed follows it. -/
theorem lastLine_cons_of_count (c : Char) {cs : List Char} (h : 0 < cs.count '\n') :
    lastLine (c :: cs) = lastLine cs := by
  have hmem := List.mem_reverse.mpr (List.count_pos_iff.mp h)
  have hpart : ((cs.reverse).takeWhile fun c => decide (c ≠ '\n')).length ≠ cs.reverse.length := by
    intro hlen
    have hself := (List.takeWhile_prefix (fun c => decide (c ≠ '\n'))).eq_of_length hlen
    simpa using List.takeWhile_eq_self_iff.mp hself '\n' hmem
  unfold lastLine
  rw [List.reverse_cons, List.takeWhile_append, if_neg hpart]

theorem lastLine_feed (cs : List Char) : lastLine ('\n' :: cs) = lastLine cs := by
  cases hn : cs.count '\n' with
  | succ n => exact lastLine_cons_of_count '\n' (by omega)
  | zero =>
    have hself := lastLine_of_count hn
    unfold lastLine at hself ⊢
    rw [List.reverse_cons, List.takeWhile_append, List.reverse_eq_iff.mp hself, if_pos rfl]
    simp

/-- A character in front makes the last line longer only where it is the first line, too. -/
theorem length_lastLine_cons {c : Char} (hc : c ≠ '\n') (cs : List Char) :
    (lastLine (c :: cs)).length = (lastLine cs).length + if cs.count '\n' = 0 then 1 else 0 := by
  by_cases hn : cs.count '\n' = 0
  · rw [if_pos hn, lastLine_of_count hn, lastLine_of_count (by rw [List.count_cons_of_ne hc, hn])]
    rfl
  · rw [if_neg hn, lastLine_cons_of_count c (by omega), Nat.add_zero]

/-! ## Lines -/

/-- The row of a place is a line, and the column lies on it. -/
theorem splitAt_place (pre post : List Char) : ∃ line,
    (splitAt '\n' (pre ++ post))[pre.count '\n']? = some line ∧
      (lastLine pre).length ≤ line.length := by
  induction pre with
  | nil =>
    obtain ⟨line, rest, h⟩ := splitAt_eq_cons '\n' post
    exact ⟨line, by simp [h], by simp [lastLine]⟩
  | cons c pre ih =>
    obtain ⟨found, hfound, hcolumn⟩ := ih
    by_cases hc : c = '\n'
    · subst hc
      refine ⟨found, ?_, by rwa [lastLine_feed]⟩
      rwa [List.cons_append, splitAt_separator, List.count_cons_self, List.getElem?_cons_succ]
    · obtain ⟨line, rest, hs, hcons⟩ := splitAt_cons hc (pre ++ post)
      rw [hs] at hfound
      rw [List.cons_append, hcons, List.count_cons_of_ne hc, length_lastLine_cons hc]
      cases hn : pre.count '\n' with
      | zero =>
        simp only [hn, List.getElem?_cons_zero, Option.some.injEq] at hfound
        subst hfound
        exact ⟨c :: line, rfl, by simpa using hcolumn⟩
      | succ n => exact ⟨found, by simpa [hn] using hfound, by simpa using hcolumn⟩

/-! ## Cuts -/

/-- A cut from the start of the text begins with its first character. -/
theorem cut_cons_start (c : Char) (line : List Char) (rest : List (List Char))
    (lastRow lastColumn : Nat) :
    cut ((c :: line) :: rest) 0 0 lastRow (lastColumn + if lastRow = 0 then 1 else 0) =
      c :: cut (line :: rest) 0 0 lastRow lastColumn := by
  cases lastRow <;> simp [cut]

/-- A character in front of the text moves the columns of the first row, and no other. -/
theorem cut_cons (c : Char) (line : List Char) (rest : List (List Char))
    (row column lastRow lastColumn : Nat) :
    cut ((c :: line) :: rest) row (column + if row = 0 then 1 else 0) lastRow
        (lastColumn + if lastRow = 0 then 1 else 0) =
      cut (line :: rest) row column lastRow lastColumn := by
  cases row <;> cases lastRow <;> simp [cut]

theorem cut_start (mid post : List Char) :
    cut (splitAt '\n' (mid ++ post)) 0 0 (mid.count '\n') (lastLine mid).length = mid := by
  induction mid with
  | nil =>
    obtain ⟨line, rest, h⟩ := splitAt_eq_cons '\n' post
    simp [h, cut, lastLine]
  | cons c mid ih =>
    by_cases hc : c = '\n'
    · subst hc
      rw [List.cons_append, splitAt_separator, List.count_cons_self, lastLine_feed, cut, ih]; rfl
    · obtain ⟨line, rest, hs, hcons⟩ := splitAt_cons hc (mid ++ post)
      rw [hs] at ih
      rw [List.cons_append, hcons, List.count_cons_of_ne hc, length_lastLine_cons hc,
        cut_cons_start, ih]

/-- What lies between two places is the cut from the row and column of the one to those of the
other. -/
theorem cut_place (pre mid post : List Char) :
    cut (splitAt '\n' (pre ++ mid ++ post)) (pre.count '\n') (lastLine pre).length
      ((pre ++ mid).count '\n') (lastLine (pre ++ mid)).length = mid := by
  -- a line feed in front adds a row above both places, any other character a column
  induction pre with
  | nil => exact cut_start mid post
  | cons c pre ih =>
    by_cases hc : c = '\n'
    · subst hc
      simp only [List.cons_append, splitAt_separator, List.count_cons_self, lastLine_feed, cut]
      exact ih
    · obtain ⟨line, rest, hs, hcons⟩ := splitAt_cons hc (pre ++ mid ++ post)
      rw [hs] at ih
      simp only [List.cons_append, hcons, List.count_cons_of_ne hc, length_lastLine_cons hc,
        cut_cons]
      exact ih

end CallSift.Text
