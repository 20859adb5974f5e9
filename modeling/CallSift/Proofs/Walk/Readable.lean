import CallSift.Proofs.Syntax.WellFormed
import CallSift.Proofs.Walk.Visit

/-!
# What can be read on a well-formed tree

Every text that a walk reads lies between two offsets of the tree. On a tree that
fits its source they are boundaries in the right order, so the text is there: of
the node itself, of a child, of an assignment, or from the first to the last of the
nodes inside an interpolation.

* `callReference_total`: a call fails for want of a name alone.
* `visit_failed_iff`: so a visit fails at such a call, and at no other node.
-/
namespace CallSift.Node

/-- A node with neither a name to call nor arguments to call with. -/
def Nameless (node : Node) : Prop :=
  node.child? "method" = none ∧ node.child? "arguments" = none

instance (node : Node) : Decidable node.Nameless :=
  inferInstanceAs (Decidable (node.child? "method" = none ∧ node.child? "arguments" = none))

variable {source : Source} {node : Node}

/-! ## Texts -/

theorem spanText_total {first last : Node} (hfirst : source.Boundary first.start)
    (hlast : source.Boundary last.stop) (h : first.start ≤ last.stop) :
    ∃ text, spanText source first last = .ok text := by
  obtain ⟨text, ht⟩ := Source.slice?_of_boundary hfirst hlast h
  exact ⟨text, spanText_eq_ok.mpr ht⟩

theorem text_total (h : node.WellFormed source) : ∃ text, node.text source = .ok text :=
  spanText_total h.fits.start h.fits.stop h.fits.ordered

theorem readOptional_total {α : Type} (read : Node → Except WalkFault α) (child : Option Node)
    (h : ∀ node, child = some node → ∃ value, read node = .ok value) :
    ∃ value, readOptional read child = .ok value := by
  cases child with
  | none => exact ⟨none, rfl⟩
  | some node =>
    obtain ⟨value, hvalue⟩ := h node rfl
    exact ⟨some value, map_eq_ok.mpr ⟨value, hvalue, rfl⟩⟩

/-! ## Children -/

theorem child?_mem {child : Node} {field : String} (h : node.child? field = some child) :
    child ∈ node.children := List.mem_of_find?_eq_some h

theorem WellFormed.child? (h : node.WellFormed source) {child : Node} {field : String}
    (hc : node.child? field = some child) : child.WellFormed source := h.child (child?_mem hc)

theorem operands_sublist (node : Node) : node.operands.Sublist node.children :=
  List.filter_sublist

theorem argumentTexts_total (h : node.WellFormed source) :
    ∃ texts, argumentTexts source node = .ok texts := by
  unfold argumentTexts
  split
  · exact ⟨none, rfl⟩
  · obtain ⟨texts, ht⟩ := mapM_total (text source) node.operands
      fun operand ho => text_total (h.child (node.operands_sublist.subset ho))
    exact ⟨some texts, map_eq_ok.mpr ⟨texts, ht, rfl⟩⟩

/-- Of the nodes in an interpolation the last one does not end before the first one starts. -/
theorem operands_ordered (h : node.WellFormed source) {first last : Node}
    (hfirst : node.operands.head? = some first) (hlast : node.operands.getLast? = some last) :
    first.start ≤ last.stop := by
  have hpair := h.fits.inOrder.sublist node.operands_sublist
  have hfit : ∀ operand ∈ node.operands, operand.start ≤ operand.stop := fun operand ho =>
    (h.child (node.operands_sublist.subset ho)).fits.ordered
  cases hops : node.operands with
  | nil => simp [hops] at hfirst
  | cons only rest =>
    rw [hops] at hfirst hlast hpair hfit
    cases hfirst
    obtain ⟨hbehind, -⟩ := List.pairwise_cons.mp hpair
    have h1 := hfit first List.mem_cons_self
    rcases List.mem_cons.mp (List.mem_of_getLast? hlast) with rfl | hmem
    · exact h1
    · have h2 := hbehind last hmem
      have h3 := hfit last (List.mem_cons_of_mem first hmem)
      omega

theorem interpolationText_total (h : node.WellFormed source) :
    ∃ text, interpolationText source node = .ok text := by
  unfold interpolationText
  split
  · rename_i first last hfirst hlast
    have hf := h.child (node.operands_sublist.subset (List.mem_of_mem_head? hfirst))
    have hl := h.child (node.operands_sublist.subset (List.mem_of_getLast? hlast))
    exact spanText_total hf.fits.start hl.fits.stop (operands_ordered h hfirst hlast)
  · exact ⟨"", rfl⟩

/-! ## References -/

theorem commandReference_total (h : node.WellFormed source) :
    ∃ reference, node.commandReference source = .ok reference := by
  obtain ⟨segments, hs⟩ := mapM_total (interpolationText source)
    node.interpolations fun child hc =>
      interpolationText_total (h.child (List.mem_filter.mp hc).1)
  obtain ⟨text, ht⟩ := text_total h
  exact ⟨_, bind_eq_ok.mpr ⟨segments, hs, bind_eq_ok.mpr ⟨text, ht, rfl⟩⟩⟩

theorem setterReference_total (h : node.WellFormed source) (call : Reference) :
    ∃ reference, setterReference source node call = .ok reference := by
  obtain ⟨value, hv⟩ := readOptional_total (text source) (node.child? "right")
    fun right hr => text_total (h.child? hr)
  obtain ⟨whole, hw⟩ := text_total h
  exact ⟨_, bind_eq_ok.mpr ⟨value, hv, bind_eq_ok.mpr ⟨whole, hw, rfl⟩⟩⟩

theorem calledName_total (h : node.WellFormed source) (hnamed : ¬ node.Nameless) :
    ∃ name, node.calledName source = .ok name := by
  unfold calledName
  cases hm : node.child? "method" with
  | some method =>
    by_cases hk : method.kind = "super"
    · exact ⟨none, if_pos hk⟩
    · obtain ⟨name, hn⟩ := text_total (h.child? hm)
      refine ⟨some name, ?_⟩
      simp only [if_neg hk]
      exact map_eq_ok.mpr ⟨name, hn, rfl⟩
  | none =>
    cases ha : node.child? "arguments" with
    | some arguments => exact ⟨some "call", rfl⟩
    | none => exact absurd ⟨hm, ha⟩ hnamed

/-- The extent of a call ends with the call itself or with one of its children. -/
theorem extentEnd_mem (node : Node) : node.extentEnd = node ∨ node.extentEnd ∈ node.children := by
  unfold extentEnd
  cases node.child? "block" with
  | none => exact .inl rfl
  | some block =>
    cases ha : node.child? "arguments" with
    | some arguments => exact .inr (child?_mem ha)
    | none =>
      cases hm : node.child? "method" with
      | some method => exact .inr (child?_mem hm)
      | none => exact .inl rfl

theorem extent_total (h : node.WellFormed source) :
    ∃ text, spanText source node node.extentEnd = .ok text := by
  rcases node.extentEnd_mem with heq | hmem
  · rw [heq]; exact text_total h
  · have hlast := (h.child hmem).fits
    have hin := h.fits.within _ hmem
    exact spanText_total h.fits.start hlast.stop (by have := hlast.ordered; omega)

/-- A call with a name or arguments is read, be it of the parent's method, a plain call or a
setter. -/
theorem callReference_total {parent : Option Node} (h : node.WellFormed source)
    (hparent : ∀ above, parent = some above → above.WellFormed source)
    (hnamed : ¬ node.Nameless) : ∃ reference, node.callReference source parent = .ok reference := by
  obtain ⟨called, hcalled⟩ := calledName_total h hnamed
  cases called with
  | none => exact ⟨none, bind_eq_ok.mpr ⟨none, hcalled, rfl⟩⟩
  | some name =>
    obtain ⟨qualifier, hq⟩ := readOptional_total (text source)
      (node.child? "receiver") fun receiver hr => text_total (h.child? hr)
    obtain ⟨arguments, ha⟩ := readOptional_total (argumentTexts source)
      (node.child? "arguments") fun list hl => argumentTexts_total (h.child? hl)
    obtain ⟨text, ht⟩ := extent_total h
    let call := node.plainCall source name qualifier arguments.join text
    cases hassign : node.assignment? parent with
    | none =>
      refine ⟨some call, bind_eq_ok.mpr ⟨some name, hcalled, bind_eq_ok.mpr ⟨qualifier, hq,
        bind_eq_ok.mpr ⟨arguments, ha, bind_eq_ok.mpr ⟨text, ht, ?_⟩⟩⟩⟩⟩
      simp only [hassign]
      rfl
    | some assignment =>
      have hform := hparent assignment (Option.filter_eq_some_iff.mp hassign).1
      obtain ⟨setter, hs⟩ := setterReference_total hform call
      refine ⟨some setter, bind_eq_ok.mpr ⟨some name, hcalled, bind_eq_ok.mpr ⟨qualifier, hq,
        bind_eq_ok.mpr ⟨arguments, ha, bind_eq_ok.mpr ⟨text, ht, ?_⟩⟩⟩⟩⟩
      simp only [hassign]
      exact map_eq_ok.mpr ⟨setter, hs, rfl⟩

theorem callReference_nameless {parent : Option Node} (h : node.Nameless) :
    node.callReference source parent = .error (node.fault source .namelessCall) := by
  have hname : node.calledName source = .error (node.fault source .namelessCall) := by
    simp only [calledName, h.1, h.2]
  rw [callReference, hname]
  rfl

/-! ## Visits -/

/-- A visit fails at a call with neither name nor arguments, and at no other node. -/
theorem visit_failed_iff {filter : Filter} {parent : Option Node} {scopes : Scopes}
    {fault : WalkFault} (h : node.WellFormed source)
    (hparent : ∀ above, parent = some above → above.WellFormed source) :
    (node.visit source filter parent scopes).ending = .error fault ↔
      node.kind = "call" ∧ node.Nameless ∧ fault = node.fault source .namelessCall := by
  constructor
  · intro hend
    have hv := node.visit_spec source filter parent scopes
    rw [visit_failed hend] at hv
    generalize hs : Steps.failed fault = steps at hv
    cases hv with
    | stopped hstop =>
      cases hs
      rcases hstop with ⟨hk, hc⟩ | ⟨-, hc⟩ | ⟨-, hc⟩
      · by_cases hn : node.Nameless
        · rw [callReference_nameless hn] at hc
          cases hc; exact ⟨hk, hn, rfl⟩
        · obtain ⟨reference, hok⟩ := callReference_total h hparent hn
          rw [hok] at hc; cases hc
      · obtain ⟨reference, hok⟩ := commandReference_total h
        rw [hok] at hc; cases hc
      · obtain ⟨text, hok⟩ := text_total h
        rw [hok] at hc; cases hc
    | call | command | bare =>
      have := congrArg Steps.ending hs
      rw [Steps.offer_ending] at this; cases this
    | unnamed | binding | attached | known | other => cases hs
  · rintro ⟨hk, hn, rfl⟩
    simp only [visit, hk, callReference_nameless hn]
    rfl

end CallSift.Node
