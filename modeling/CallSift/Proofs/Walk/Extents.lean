import CallSift.Proofs.Source.Extent
import CallSift.Proofs.Walk.Candidates

/-!
# The extents of references

Each way of reading a reference slices its text between two offsets and takes its
extent between the same ones: a call ends before its block, a setter and a literal
with their node. A slice that succeeds fits the source, so nothing is asked of the
tree.

* `Reports.sliced`: a reference found at one node is a slice with its extent; from it,
  `walk_sliced`, every finding of a walk is.
* `extent_addresses_text`: so every reference of a walk addresses its text, and
  `walk_ordered`, none ends before it starts.
-/
namespace CallSift

/-- The extent of the reference addresses the reference's own text. -/
def Reference.Addressed (source : Source) (reference : Reference) : Prop :=
  reference.span.Addresses source reference.text

/-- The reference's text is a slice of the source, and its extent lies between the same offsets. -/
def Reference.Sliced (source : Source) (reference : Reference) : Prop :=
  ∃ start stop, source.slice? start stop = some reference.text ∧
    reference.span = Span.ofOffsets source start stop

/-- What a pass finds, it finds at a position, also if it is stopped later. -/
theorem sweep_found {step : Position → Except WalkFault (List Finding)} {s : Scopes}
    {finding : Finding} : ∀ {ps : List Position}, finding ∈ (sweep step s ps).findings →
      ∃ p ∈ ps, ∃ found, step p = .ok found ∧ finding ∈ found
  | [], h => by simp [sweep, Steps.done] at h
  | p :: ps, h => by
    unfold sweep at h
    cases hp : step p with
    | error fault => simp [hp, Steps.failed] at h
    | ok found =>
      simp only [hp] at h
      rcases List.mem_append.mp h with h | h
      · exact ⟨p, List.mem_cons_self, found, hp, h⟩
      · obtain ⟨q, hq, later, hstep, hmem⟩ := sweep_found h
        exact ⟨q, List.mem_cons_of_mem p hq, later, hstep, hmem⟩

namespace Node

theorem spanTo_sliced {source : Source} {first last : Node} {reference : Reference}
    (h : spanText source first last = .ok reference.text)
    (hspan : reference.span = first.spanTo source last) : reference.Sliced source :=
  ⟨first.start, last.stop, spanText_eq_ok.mp h, hspan⟩

theorem callReference_sliced {source : Source} {parent : Option Node} {node : Node}
    {reference : Reference} (h : node.callReference source parent = .ok (some reference)) :
    reference.Sliced source := by
  obtain ⟨name, qualifier, arguments, text, -, -, -, htext, hr⟩ := callReference_some h
  rcases hr with ⟨-, rfl⟩ | ⟨assignment, -, hs⟩
  · exact spanTo_sliced htext rfl
  · obtain ⟨value, whole, -, hwhole, rfl⟩ := setterReference_ok hs
    exact spanTo_sliced hwhole rfl

theorem commandReference_sliced {source : Source} {node : Node} {reference : Reference}
    (h : node.commandReference source = .ok reference) : reference.Sliced source := by
  obtain ⟨segments, text, -, htext, rfl⟩ := commandReference_ok h
  exact spanTo_sliced htext rfl

theorem bareReference_sliced {source : Source} {node : Node} {name : String}
    (h : node.text? source = some name) : (node.bareReference source name).Sliced source :=
  spanTo_sliced (text_eq_ok.mpr h) rfl

theorem Reports.sliced {source : Source} {parent : Option Node} {node : Node}
    {reference : Reference} (h : Reports source parent node reference) :
    reference.Sliced source := by
  cases h with
  | call hc => exact callReference_sliced hc
  | command hc => exact commandReference_sliced hc
  | bare ht => exact bareReference_sliced ht

/-- What a walk has found, the visit of a node found, also if the walk is stopped later. -/
theorem mem_walk {source : Source} {filter : Filter} {limit : Nat} {root : Node}
    {finding : Finding} (h : finding ∈ (root.walk source filter limit).findings) :
    ∃ parent node scopes steps, Visit source filter parent node scopes steps ∧
      finding ∈ steps.findings := by
  rw [walk_eq_sweep] at h
  obtain ⟨p, hp, found, hstep, hmem⟩ := sweep_found h
  obtain ⟨node, hnode⟩ := Option.isSome_iff_exists.mp ((mem_positions root p).mp hp)
  obtain ⟨-, steps, scopes, hv, -, rfl⟩ := stepAt_ok hnode hstep
  exact ⟨_, _, _, _, hv, hmem⟩

/-- All that a walk has found are slices with their extents. -/
theorem walk_sliced {source : Source} {filter : Filter} {limit : Nat} {root : Node}
    {reference : Reference} (h : .reference reference ∈ (root.walk source filter limit).findings) :
    reference.Sliced source := by
  obtain ⟨parent, node, scopes, steps, hv, hmem⟩ := mem_walk h
  exact (hv.reports hmem).1.sliced

theorem walk_addressed {source : Source} {filter : Filter} {limit : Nat} {root : Node}
    {reference : Reference} (h : .reference reference ∈ (root.walk source filter limit).findings) :
    reference.Addressed source := by
  obtain ⟨start, stop, hslice, hspan⟩ := walk_sliced h
  unfold Reference.Addressed
  rw [hspan]
  exact Source.slice?_addressed hslice

/-- No extent of what a walk has found is reversed. -/
theorem walk_ordered {source : Source} {filter : Filter} {limit : Nat} {root : Node}
    {reference : Reference} (h : .reference reference ∈ (root.walk source filter limit).findings) :
    1 ≤ reference.span.line ∧ reference.span.Ordered := by
  obtain ⟨start, stop, hslice, hspan⟩ := walk_sliced h
  rw [hspan]
  exact ⟨Nat.le_add_left 1 _, Source.slice?_ordered hslice⟩

/-- **Positions address the text.** In the lines of the source, the text of every
reference stands from the column on its first line up to, without it, the column on its last
line; both lines exist, and neither column exceeds its line. -/
theorem extent_addresses_text {source : Source} {filter : Filter} {limit : Nat} {root : Node}
    {refs : List Reference}
    (h : (Extraction.ofSteps (root.walk source filter limit)).result = .ok refs) :
    ∀ r ∈ refs,
      Text.cut (Text.splitAt '\n' source.chars) (r.span.line - 1) r.span.column
        (r.span.lastLine - 1) r.span.lastColumn = r.text.toList ∧
      (1 ≤ r.span.line ∧ ∃ line, (Text.splitAt '\n' source.chars)[r.span.line - 1]? = some line ∧
        r.span.column ≤ line.length) ∧
      (1 ≤ r.span.lastLine ∧
        ∃ line, (Text.splitAt '\n' source.chars)[r.span.lastLine - 1]? = some line ∧
          r.span.lastColumn ≤ line.length) := by
  obtain ⟨scopes, -, rfl⟩ := Extraction.ofSteps_ok h
  intro r hr
  obtain ⟨finding, hmem, hf⟩ := List.mem_filterMap.mp hr
  cases finding with
  | reference found =>
    cases hf
    have hr := walk_addressed hmem
    exact ⟨hr.cut, hr.first, hr.last⟩
  | methodBody | singletonMethodBody => cases hf

def setterText : Source := .ofString "é\n.b=é"

/-- `setterText` as a tree: an assignment whose left side is a call. -/
def setterTree : Node :=
  branch "program" 0 8 []
    [branch "assignment" 0 8 []
      [branch "call" 0 5 ["left"]
        [leaf "identifier" 0 2 ["receiver"], leaf "identifier" 4 5 ["method"]],
       leaf "identifier" 6 8 ["right"]]]

def setterReferences : List Reference :=
  [⟨.call, "b=", some "é", some ["é"], ⟨1, 0, 2, 4⟩, "é\n.b=é"⟩,
   ⟨.call, "é", none, none, ⟨2, 3, 2, 4⟩, "é"⟩]

set_option maxRecDepth 4000 in
/-- The setter's extent covers two lines, whose characters take one or two bytes. -/
theorem setter_addresses_text :
    (Extraction.ofSteps (setterTree.walk setterText .passThrough 9)).result =
      .ok setterReferences ∧
    Text.cut (Text.splitAt '\n' setterText.chars) 0 0 1 4 = "é\n.b=é".toList := by
  have h : (Extraction.ofSteps (setterTree.walk setterText .passThrough 9)).result =
      .ok setterReferences := by rfl
  exact ⟨h, (extent_addresses_text h _ List.mem_cons_self).1⟩

end Node
end CallSift
