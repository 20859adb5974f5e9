import CallSift.Proofs.Except
import CallSift.Walk.Recognition

/-!
# What a reference is made of

Every reading of a reference is a chain of fallible readings. The lemmas here
take the chains apart: from a reference to the texts that it is made of.

* `callReference_none`: a call without a reference is one of the parent's method.
* `callReference_some`, `setterReference_ok`, `commandReference_ok`: the parts.
-/
namespace CallSift.Node

/-- The reference of a call that is not the left side of an assignment. -/
def plainCall (source : Source) (node : Node) (name : String) (qualifier : Option String)
    (arguments : Option (List String)) (text : String) : Reference where
  shape := .call
  name := name
  qualifier := qualifier
  arguments := arguments
  span := node.spanTo source node.extentEnd
  text := text

/-- A call of the parent's method, which has no name of its own. -/
def CallsParent (node : Node) : Prop :=
  ∃ method, node.child? "method" = some method ∧ method.kind = "super"

theorem spanText_eq_ok {source : Source} {first last : Node} {text : String} :
    spanText source first last = .ok text ↔ source.slice? first.start last.stop = some text := by
  unfold spanText spanText?
  cases source.slice? first.start last.stop <;> simp

theorem text_eq_ok {source : Source} {node : Node} {text : String} :
    node.text source = .ok text ↔ node.text? source = some text := spanText_eq_ok

/-- An optional node is read, or there is none. -/
theorem readOptional_ok {α : Type} {read : Node → Except WalkFault α} {child : Option Node}
    {value : Option α} : readOptional read child = .ok value ↔
      (child = none ∧ value = none) ∨
        ∃ node found, child = some node ∧ read node = .ok found ∧ value = some found := by
  cases child with
  | none => simp [readOptional, eq_comm]
  | some node =>
    rw [readOptional, map_eq_ok]
    simp only [reduceCtorEq, false_and, false_or, Option.some.injEq, exists_and_left,
      exists_eq_left', eq_comm]

theorem calledName_none {source : Source} {node : Node} :
    node.calledName source = .ok none ↔ node.CallsParent := by
  unfold calledName CallsParent
  cases node.child? "method" with
  | none => cases node.child? "arguments" <;> simp
  | some method =>
    by_cases hk : method.kind = "super"
    · simp [hk]
    · simp [hk, map_eq_ok]

/-- The parts of the reference of a call: of a plain call, or of a setter made from one. -/
theorem callReference_some {source : Source} {parent : Option Node} {node : Node}
    {reference : Reference} (h : node.callReference source parent = .ok (some reference)) :
    ∃ name qualifier arguments text,
      node.calledName source = .ok (some name) ∧
      readOptional (Node.text source) (node.child? "receiver") = .ok qualifier ∧
      readOptional (argumentTexts source) (node.child? "arguments") = .ok arguments ∧
      spanText source node node.extentEnd = .ok text ∧
      ((node.assignment? parent = none ∧
          reference = node.plainCall source name qualifier arguments.join text) ∨
        ∃ assignment, node.assignment? parent = some assignment ∧
          setterReference source assignment
            (node.plainCall source name qualifier arguments.join text) = .ok reference) := by
  unfold callReference at h
  obtain ⟨called, hcalled, h⟩ := bind_eq_ok.mp h
  cases called with
  | none => cases return_eq_ok.mp h
  | some name =>
    obtain ⟨qualifier, hq, h⟩ := bind_eq_ok.mp h
    obtain ⟨arguments, ha, h⟩ := bind_eq_ok.mp h
    obtain ⟨text, ht, h⟩ := bind_eq_ok.mp h
    refine ⟨name, qualifier, arguments, text, hcalled, hq, ha, ht, ?_⟩
    cases hassign : node.assignment? parent with
    | none =>
      simp only [hassign, return_eq_ok, Option.some.injEq] at h
      exact Or.inl ⟨rfl, h.symm⟩
    | some assignment =>
      simp only [hassign] at h
      obtain ⟨setter, hs, heq⟩ := map_eq_ok.mp h
      cases heq
      exact Or.inr ⟨assignment, rfl, hs⟩

theorem callReference_none {source : Source} {parent : Option Node} {node : Node} :
    node.callReference source parent = .ok none ↔ node.CallsParent := by
  constructor
  · intro h
    unfold callReference at h
    obtain ⟨called, hcalled, h⟩ := bind_eq_ok.mp h
    cases called with
    | none => exact calledName_none.mp hcalled
    | some name =>
      obtain ⟨qualifier, -, h⟩ := bind_eq_ok.mp h
      obtain ⟨arguments, -, h⟩ := bind_eq_ok.mp h
      obtain ⟨text, -, h⟩ := bind_eq_ok.mp h
      cases hassign : node.assignment? parent with
      | none => simp only [hassign, return_eq_ok, reduceCtorEq] at h
      | some assignment =>
        simp only [hassign] at h
        obtain ⟨setter, -, heq⟩ := map_eq_ok.mp h
        cases heq
  · intro h
    exact bind_eq_ok.mpr ⟨none, calledName_none.mpr h, rfl⟩

theorem setterReference_ok {source : Source} {assignment : Node} {call setter : Reference}
    (h : setterReference source assignment call = .ok setter) :
    ∃ value whole,
      readOptional (text source) (assignment.child? "right") = .ok value ∧
      assignment.text source = .ok whole ∧
      setter = { call with
        name := call.name ++ "="
        arguments := (value.map fun text => [text]).or call.arguments
        span := assignment.spanTo source assignment
        text := whole } := by
  unfold setterReference at h
  obtain ⟨value, hvalue, h⟩ := bind_eq_ok.mp h
  obtain ⟨whole, hwhole, h⟩ := bind_eq_ok.mp h
  exact ⟨value, whole, hvalue, hwhole, (return_eq_ok.mp h).symm⟩

theorem commandReference_ok {source : Source} {node : Node} {reference : Reference}
    (h : node.commandReference source = .ok reference) :
    ∃ segments text,
      node.interpolations.mapM (interpolationText source) = .ok segments ∧
      node.text source = .ok text ∧
      reference = {
        shape := .inlineExecution, name := commandName, qualifier := none, text := text
        arguments := if segments.isEmpty then none else some segments
        span := node.spanTo source node } := by
  unfold commandReference at h
  obtain ⟨segments, hsegments, h⟩ := bind_eq_ok.mp h
  obtain ⟨text, htext, h⟩ := bind_eq_ok.mp h
  exact ⟨segments, text, hsegments, htext, (return_eq_ok.mp h).symm⟩

theorem callReference_shape {source : Source} {parent : Option Node} {node : Node}
    {reference : Reference} (h : node.callReference source parent = .ok (some reference)) :
    reference.shape = .call := by
  obtain ⟨name, qualifier, arguments, text, -, -, -, -, hr⟩ := callReference_some h
  rcases hr with ⟨-, rfl⟩ | ⟨assignment, -, hs⟩
  · rfl
  · obtain ⟨value, whole, -, -, rfl⟩ := setterReference_ok hs; rfl

theorem commandReference_shape {source : Source} {node : Node} {reference : Reference}
    (h : node.commandReference source = .ok reference) : reference.shape = .inlineExecution := by
  obtain ⟨segments, text, -, -, rfl⟩ := commandReference_ok h; rfl

end CallSift.Node
