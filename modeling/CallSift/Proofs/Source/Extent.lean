import CallSift.Proofs.Source.Boundary
import CallSift.Proofs.Text.Rows
import CallSift.Reference

/-!
# Extents address texts

A source is sliced by byte offsets, and an extent gives lines and columns of
characters. `slice?_addressed` says that both mean the same text, whatever the
characters: the slice between two offsets stands in the lines from the first column of
their extent up to the last. `slice?_ordered`: the extent of a slice is never reversed.
-/
namespace CallSift

namespace Source

/-- The lines of a source, without the line feeds between them. -/
def lines (source : Source) : List (List Char) := Text.splitAt '\n' source.chars

/-- What stands at an extent. -/
def cut (source : Source) (span : Span) : List Char :=
  Text.cut source.lines (span.line - 1) span.column (span.lastLine - 1) span.lastColumn

end Source

/-- Both ends of the extent are places on a line, and the text stands between them. -/
structure Span.Addresses (source : Source) (span : Span) (text : String) : Prop where
  cut : source.cut span = text.toList
  first : 1 ≤ span.line ∧
    ∃ line, source.lines[span.line - 1]? = some line ∧ span.column ≤ line.length
  last : 1 ≤ span.lastLine ∧
    ∃ line, source.lines[span.lastLine - 1]? = some line ∧ span.lastColumn ≤ line.length

namespace Source

open Text

/-- A slice starts and stops between two characters. -/
theorem slice?_eq_some {source : Source} {start stop : Nat} {text : String}
    (h : source.slice? start stop = some text) : ∃ pre mid post,
      source.chars = pre ++ mid ++ post ∧ byteLength pre = start ∧
      byteLength (pre ++ mid) = stop ∧ text = String.ofList mid := by
  unfold slice? at h
  split at h
  · obtain ⟨mid, hmid, rfl⟩ := Option.map_eq_some_iff.mp h
    obtain ⟨rest, hdrop, htake⟩ := Option.bind_eq_some_iff.mp hmid
    obtain ⟨pre, hchars, hstart⟩ := dropBytes?_eq_some hdrop
    obtain ⟨post, rfl, hstop⟩ := takeBytes?_eq_some htake
    refine ⟨pre, mid, post, by rw [hchars, List.append_assoc], hstart, ?_, rfl⟩
    rw [byteLength_append]; omega
  · cases h

theorem row_eq {source : Source} {pre post : List Char} (h : source.chars = pre ++ post) :
    source.row (byteLength pre) = pre.count '\n' := by
  rw [row, h, before_append]

theorem lastLine_split (cs : List Char) : ∃ head, cs = head ++ lastLine cs ∧
    byteLength cs = byteLength head + byteLength (lastLine cs) := by
  obtain ⟨head, hhead⟩ := lastLine_suffix cs
  exact ⟨head, hhead.symm, by rw [← byteLength_append, hhead]⟩

/-- The bytes since the last line feed are those of the characters since then. -/
theorem bytes?_lastLine {source : Source} {pre post : List Char}
    (h : source.chars = pre ++ post) :
    source.bytes? (byteLength pre - byteLength (lastLine pre)) (byteLength pre) =
      some ((lastLine pre).flatMap String.utf8EncodeChar) := by
  obtain ⟨head, hhead, hlength⟩ := lastLine_split pre
  have hbytes : source.chars.flatMap String.utf8EncodeChar =
      pre.flatMap String.utf8EncodeChar ++ post.flatMap String.utf8EncodeChar := by
    rw [h, List.flatMap_append]
  have hbounds : byteLength pre - byteLength (lastLine pre) ≤ byteLength pre ∧
      byteLength pre ≤ (source.chars.flatMap String.utf8EncodeChar).length := by
    rw [hbytes, List.length_append, length_encode]; omega
  have htake : (source.chars.flatMap String.utf8EncodeChar).take (byteLength pre) =
      head.flatMap String.utf8EncodeChar ++ (lastLine pre).flatMap String.utf8EncodeChar := by
    rw [hbytes, ← length_encode pre, List.take_left, ← List.flatMap_append, ← hhead]
  have hdrop : byteLength pre - byteLength (lastLine pre) =
      (head.flatMap String.utf8EncodeChar).length := by
    rw [length_encode]; omega
  unfold bytes?
  rw [if_pos hbounds, htake, hdrop, List.drop_left]

/-- The column of a place counts the characters since the last line feed, however many bytes
each of them takes. -/
theorem column_eq {source : Source} {pre post : List Char} (h : source.chars = pre ++ post) :
    source.column (byteLength pre) = (lastLine pre).length := by
  have hbyte : source.byteColumn (byteLength pre) = byteLength (lastLine pre) := by
    rw [byteColumn, h, before_append]
  have hle : byteLength (lastLine pre) ≤ byteLength pre := by
    obtain ⟨head, -, hlength⟩ := lastLine_split pre
    omega
  unfold column charColumn
  simp only [hbyte, if_pos hle, bytes?_lastLine h, ofBytes_encode, String.length_ofList]

/-- The characters between the start of the row and a byte offset. -/
def linePrefix (source : Source) (offset : Nat) : List Char :=
  lastLine (before source.chars offset)

theorem column_of_boundary {source : Source} {offset : Nat} (h : source.Boundary offset) :
    source.column offset = (source.linePrefix offset).length := by
  obtain ⟨pre, post, hchars, rfl⟩ := h
  rw [column_eq hchars, linePrefix, hchars, before_append]

/-- Columns in bytes and in characters are the same where each character before has one byte. -/
theorem byteColumn_eq_column_iff {source : Source} {offset : Nat} (h : source.Boundary offset) :
    source.byteColumn offset = source.column offset ↔
      ∀ c ∈ source.linePrefix offset, c.utf8Size = 1 := by
  rw [column_of_boundary h]
  exact byteLength_eq_length_iff

/-- A slice does not end before it starts: a line feed in it leads to a later row, and without
one its characters stand on the last line, behind the others. -/
theorem slice?_ordered {source : Source} {start stop : Nat} {text : String}
    (h : source.slice? start stop = some text) : (Span.ofOffsets source start stop).Ordered := by
  obtain ⟨pre, mid, post, hchars, rfl, rfl, -⟩ := slice?_eq_some h
  have hfirst : source.chars = pre ++ (mid ++ post) := by rw [hchars, List.append_assoc]
  simp only [Span.Ordered, Span.ofOffsets, row_eq hfirst, row_eq hchars, column_eq hfirst,
    column_eq hchars, List.count_append]
  by_cases hfeed : mid.count '\n' = 0
  · right
    rw [lastLine_append pre hfeed, List.length_append]
    omega
  · left
    omega

/-- A boundary in front of another is on an earlier row, or on the same one at no later column. -/
theorem place_le {source : Source} {offset other : Nat} (h : source.Boundary offset)
    (hother : source.Boundary other) (hle : offset ≤ other) :
    source.row offset < source.row other ∨
      source.row offset = source.row other ∧ source.column offset ≤ source.column other := by
  obtain ⟨text, hslice⟩ := slice?_of_boundary h hother hle
  rcases slice?_ordered hslice with hline | ⟨hline, hcolumn⟩
  · exact .inl (Nat.lt_of_add_lt_add_right hline)
  · exact .inr ⟨Nat.add_right_cancel hline, hcolumn⟩

/-- The extent between two offsets addresses the slice between them. -/
theorem slice?_addressed {source : Source} {start stop : Nat} {text : String}
    (h : source.slice? start stop = some text) :
    (Span.ofOffsets source start stop).Addresses source text := by
  obtain ⟨pre, mid, post, hchars, rfl, rfl, rfl⟩ := slice?_eq_some h
  have hfirst : source.chars = pre ++ (mid ++ post) := by rw [hchars, List.append_assoc]
  constructor
  · simp only [cut, lines, Span.ofOffsets, Nat.add_sub_cancel, row_eq hfirst, row_eq hchars,
      column_eq hfirst, column_eq hchars, String.toList_ofList]
    rw [hchars, cut_place]
  · obtain ⟨line, hline, hcolumn⟩ := splitAt_place pre (mid ++ post)
    refine ⟨Nat.le_add_left 1 _, line, ?_, ?_⟩
    · simpa [lines, Span.ofOffsets, row_eq hfirst, ← hfirst] using hline
    · simpa [Span.ofOffsets, column_eq hfirst] using hcolumn
  · obtain ⟨line, hline, hcolumn⟩ := splitAt_place (pre ++ mid) post
    refine ⟨Nat.le_add_left 1 _, line, ?_, ?_⟩
    · simpa only [lines, Span.ofOffsets, Nat.add_sub_cancel, row_eq hchars, ← hchars] using hline
    · simpa only [Span.ofOffsets, column_eq hchars] using hcolumn

end Source
end CallSift
