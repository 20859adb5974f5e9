import CallSift.Proofs.Source.Turns
import CallSift.Proofs.Walk.Order
import CallSift.Proofs.Walk.Readable

/-!
# The parts of a reference

A call is read from several of its children, and cut off in front of a block that is attached to
it. A setter has the value for its argument and the assignment for its text. Where the fields of
calls and assignments follow each other in the source, the receiver and the arguments still
stand in the text of the reference, one behind the other.

* `extentEnd_bounds`: where a call ends.
* `call_inTurn`, `setter_inTurn`, `command_inTurn`: the parts of a reference, by the way it is read.
* `parts_inside_extent`: the parts of all candidates of a walk.
-/
namespace CallSift

/-- The reference is cut out between two offsets, and its receiver and arguments stand there in
turn. -/
structure Reference.Parted (source : Source) (reference : Reference) (start stop : Nat) : Prop where
  text : source.slice? start stop = some reference.text
  span : reference.span = Span.ofOffsets source start stop
  parts : source.InTurn start stop (reference.qualifier.toList ++ reference.arguments.getD [])

namespace Node

open Source

/-- Children stand in the order of the fields that they are listed under. -/
def FieldsFollow (node : Node) (fields : List String) : Prop :=
  fields.Pairwise fun field later => ∀ child ∈ node.children, child.isField field = true →
    ∀ other ∈ node.child? later, child.stop ≤ other.start

instance (node : Node) (fields : List String) : Decidable (node.FieldsFollow fields) :=
  inferInstanceAs (Decidable (fields.Pairwise fun field later =>
    ∀ child ∈ node.children, child.isField field = true →
      ∀ other ∈ node.child? later, child.stop ≤ other.start))

/-- The fields of a call, as they are written. -/
def callFields : List String := ["receiver", "method", "arguments", "block"]

/-- The parts of calls and of assignments follow each other in the source. -/
def InFieldOrder (root : Node) : Prop := ∀ node ∈ root.preorder,
  (node.kind = "call" → node.FieldsFollow callFields) ∧
  (node.ownKind = "assignment" → node.FieldsFollow ["left", "right"])

instance (root : Node) : Decidable root.InFieldOrder :=
  inferInstanceAs (Decidable (∀ node ∈ root.preorder,
    (node.kind = "call" → node.FieldsFollow callFields) ∧
    (node.ownKind = "assignment" → node.FieldsFollow ["left", "right"])))

variable {source : Source} {node : Node}

/-! ## Children by field -/

theorem child?_isField {child : Node} {field : String} (h : node.child? field = some child) :
    child.isField field = true := List.find?_some h

theorem FieldsFollow.stop_le {fields : List String} (h : node.FieldsFollow fields)
    {field later : String} {child other : Node} (hsub : [field, later].Sublist fields)
    (hchild : node.child? field = some child) (hother : node.child? later = some other) :
    child.stop ≤ other.start :=
  List.pairwise_pair.mp (h.sublist hsub) child (child?_mem hchild) (child?_isField hchild) other
    hother

/-- The node with which a call ends: itself, or in front of a block its arguments, or else its
method. -/
theorem extentEnd_cases (hnamed : ¬ node.Nameless) :
    (node.child? "block" = none ∧ node.extentEnd = node) ∨
    node.child? "arguments" = some node.extentEnd ∨
    (node.child? "arguments" = none ∧ node.child? "method" = some node.extentEnd) := by
  unfold extentEnd
  cases node.child? "block" with
  | none => exact .inl ⟨rfl, rfl⟩
  | some block =>
    cases harguments : node.child? "arguments" with
    | some list => exact .inr (.inl rfl)
    | none =>
      cases hmethod : node.child? "method" with
      | some method => exact .inr (.inr ⟨rfl, rfl⟩)
      | none => exact absurd ⟨hmethod, harguments⟩ hnamed

/-- Where a call ends: behind its parts, in front of its block and not behind itself. -/
theorem extentEnd_bounds (hform : node.WellFormed source) (hnamed : ¬ node.Nameless)
    (hfields : node.FieldsFollow callFields) :
    node.extentEnd.stop ≤ node.stop ∧
    (∀ receiver ∈ node.child? "receiver", receiver.stop ≤ node.extentEnd.stop) ∧
    (∀ list ∈ node.child? "arguments", list.stop ≤ node.extentEnd.stop) ∧
    ∀ block ∈ node.child? "block", node.extentEnd.stop ≤ block.start := by
  have hinside : ∀ {field child}, node.child? field = some child → child.stop ≤ node.stop :=
    fun h => (hform.fits.within _ (child?_mem h)).2
  have hordered : ∀ {field child}, node.child? field = some child → child.start ≤ child.stop :=
    fun h => (hform.child? h).fits.ordered
  rcases extentEnd_cases hnamed with ⟨hblock, hend⟩ | hlist | ⟨hnone, hmethod⟩
  · rw [hend, hblock]
    exact ⟨Nat.le_refl _, fun _ => hinside, fun _ => hinside, nofun⟩
  · refine ⟨hinside hlist, ?_, ?_, ?_⟩
    · intro receiver hreceiver
      have hbefore := hfields.stop_le (by decide) hreceiver hlist
      exact hbefore.trans (hordered hlist)
    · intro list hsame
      obtain rfl := Option.some.inj (hlist.symm.trans hsame)
      exact Nat.le_refl _
    · intro block hblock
      exact hfields.stop_le (by decide) hlist hblock
  · refine ⟨hinside hmethod, ?_, ?_, ?_⟩
    · intro receiver hreceiver
      have hbefore := hfields.stop_le (by decide) hreceiver hmethod
      exact hbefore.trans (hordered hmethod)
    · rw [hnone]
      nofun
    · intro block hblock
      exact hfields.stop_le (by decide) hmethod hblock

/-! ## Texts of nodes -/

theorem text_inTurn {text : String} (h : node.text source = .ok text) :
    source.InTurn node.start node.stop [text] := .single (text_eq_ok.mp h)

/-- Texts read from children, each inside of its own, stand in turn inside of the node. -/
theorem children_inTurn (hform : node.WellFormed source) {items : List Node}
    (hitems : items.Sublist node.children) {read : Node → Except WalkFault String}
    {texts : List String} (h : items.mapM read = .ok texts)
    (hread : ∀ item ∈ items, ∀ text, read item = .ok text →
      source.InTurn item.start item.stop [text]) :
    source.InTurn node.start node.stop texts := by
  refine inTurn_mapM h hform.fits.ordered hread (hform.fits.inOrder.sublist hitems) ?_
  intro item hitem
  have hmem := hitems.subset hitem
  have hinside := hform.fits.within item hmem
  exact ⟨hinside.1, (hform.child hmem).fits.ordered, hinside.2⟩

theorem argumentTexts_inTurn (hform : node.WellFormed source) {texts : Option (List String)}
    (h : argumentTexts source node = .ok texts) :
    source.InTurn node.start node.stop (texts.getD []) := by
  unfold argumentTexts at h
  split at h
  · cases h
    exact .nil ..
  · obtain ⟨read, hread, rfl⟩ := map_eq_ok.mp h
    exact children_inTurn hform node.operands_sublist hread fun operand _ text => text_inTurn

theorem interpolationText_inTurn (hform : node.WellFormed source) {text : String}
    (h : interpolationText source node = .ok text) :
    source.InTurn node.start node.stop [text] := by
  unfold interpolationText at h
  split at h
  · rename_i first last hfirst hlast
    have hfirstIn := hform.fits.within first
      (node.operands_sublist.subset (List.mem_of_mem_head? hfirst))
    have hlastIn := hform.fits.within last
      (node.operands_sublist.subset (List.mem_of_getLast? hlast))
    exact (InTurn.single (spanText_eq_ok.mp h)).mono hfirstIn.1 hlastIn.2
  · -- an interpolation without operands has an empty text, which stands where it starts
    cases h
    exact (InTurn.single (slice?_self hform.fits.start)).mono (Nat.le_refl _) hform.fits.ordered

/-- The text of a child stands where the child does. -/
theorem childText_inTurn {field : String} {start stop : Nat} {qualifier : Option String}
    (h : readOptional (text source) (node.child? field) = .ok qualifier)
    (hinside : ∀ child ∈ node.child? field, start ≤ child.start ∧ child.stop ≤ stop) :
    source.InTurn start stop qualifier.toList := by
  rcases readOptional_ok.mp h with ⟨-, rfl⟩ | ⟨child, text, hchild, htext, rfl⟩
  · exact .nil ..
  · have hbounds := hinside child hchild
    exact (text_inTurn htext).mono hbounds.1 hbounds.2

/-! ## References -/

/-- The receiver and the arguments of a call stand in turn before its end. -/
theorem call_inTurn (hform : node.WellFormed source) (hnamed : ¬ node.Nameless)
    (hfields : node.FieldsFollow callFields)
    {qualifier : Option String} {arguments : Option (Option (List String))}
    (hq : readOptional (text source) (node.child? "receiver") = .ok qualifier)
    (ha : readOptional (argumentTexts source) (node.child? "arguments") = .ok arguments) :
    source.InTurn node.start node.extentEnd.stop
      (qualifier.toList ++ arguments.join.getD []) := by
  obtain ⟨-, hreceiver, hlist, -⟩ := extentEnd_bounds hform hnamed hfields
  have hstart : ∀ {field child}, node.child? field = some child → node.start ≤ child.start :=
    fun h => (hform.fits.within _ (child?_mem h)).1
  rcases readOptional_ok.mp ha with ⟨-, rfl⟩ | ⟨list, texts, harguments, htexts, rfl⟩
  · rw [Option.join_none, Option.getD_none, List.append_nil]
    exact childText_inTurn hq fun receiver h => ⟨hstart h, hreceiver receiver h⟩
  · have hlistIn := hform.child? harguments
    have hbefore : source.InTurn node.start list.start qualifier.toList :=
      childText_inTurn hq fun receiver h => ⟨hstart h, hfields.stop_le (by decide) h harguments⟩
    have hstop := hlist list harguments
    refine hbefore.append ((argumentTexts_inTurn hlistIn htexts).mono (Nat.le_refl _) hstop)
      (hstart harguments) ?_
    exact hlistIn.fits.ordered.trans hstop

/-- The receiver of a setter and what is assigned stand in turn in the assignment; so do the parts
of the call where nothing is assigned. -/
theorem setter_inTurn {assignment : Node} (hform : assignment.WellFormed source)
    (hmem : node ∈ assignment.children) (hleft : node.isField "left" = true)
    (hnamed : ¬ node.Nameless)
    (hfields : node.FieldsFollow callFields)
    (hassign : assignment.FieldsFollow ["left", "right"])
    {qualifier value : Option String} {arguments : Option (Option (List String))}
    (hq : readOptional (text source) (node.child? "receiver") = .ok qualifier)
    (ha : readOptional (argumentTexts source) (node.child? "arguments") = .ok arguments)
    (hv : readOptional (text source) (assignment.child? "right") = .ok value) :
    source.InTurn assignment.start assignment.stop (qualifier.toList ++
      ((value.map fun text => [text]).or arguments.join).getD []) := by
  have hcallIn := hform.child hmem
  have hinside := hform.fits.within node hmem
  rcases readOptional_ok.mp hv with ⟨-, rfl⟩ | ⟨right, text, hright, htext, rfl⟩
  · obtain ⟨hend, -⟩ := extentEnd_bounds hcallIn hnamed hfields
    exact (call_inTurn hcallIn hnamed hfields hq ha).mono hinside.1 (hend.trans hinside.2)
  · have hbehind : node.stop ≤ right.start :=
      List.pairwise_pair.mp hassign node hmem hleft right hright
    have hrightInside := hform.fits.within right (child?_mem hright)
    have hbefore : source.InTurn assignment.start right.start qualifier.toList := by
      refine childText_inTurn hq ?_
      intro receiver hreceiver
      have hbounds := hcallIn.fits.within receiver (child?_mem hreceiver)
      omega
    refine hbefore.append ((text_inTurn htext).mono (Nat.le_refl _) hrightInside.2)
      hrightInside.1 ?_
    exact (hform.child? hright).fits.ordered.trans hrightInside.2

/-- The commands in a literal stand in turn in it. -/
theorem command_inTurn (hform : node.WellFormed source) {segments : List String}
    (h : node.interpolations.mapM (interpolationText source) = .ok segments) :
    source.InTurn node.start node.stop segments :=
  children_inTurn hform List.filter_sublist h fun _ hchild _ =>
    interpolationText_inTurn (hform.child (List.mem_filter.mp hchild).1)

/-- What a call that is read reports. -/
theorem callReference_parted {parent : Option Node} {reference : Reference}
    (hform : node.WellFormed source)
    (hparent : ∀ above ∈ parent, above.WellFormed source ∧ node ∈ above.children ∧
      (above.ownKind = "assignment" → above.FieldsFollow ["left", "right"]))
    (hfields : node.FieldsFollow callFields)
    (h : node.callReference source parent = .ok (some reference)) :
    ∃ start stop, reference.Parted source start stop ∧
      (node.assignment? parent = none → ∀ block ∈ node.child? "block", stop ≤ block.start) := by
  have hnamed : ¬ node.Nameless := by
    intro hn
    rw [callReference_nameless hn] at h
    cases h
  obtain ⟨name, qualifier, arguments, text, -, hq, ha, htext, hr⟩ := callReference_some h
  rcases hr with ⟨hplain, rfl⟩ | ⟨assignment, hassign, hs⟩
  · obtain ⟨-, -, -, hblock⟩ := extentEnd_bounds hform hnamed hfields
    refine ⟨node.start, node.extentEnd.stop, ⟨spanText_eq_ok.mp htext, rfl, ?_⟩, fun _ => hblock⟩
    exact call_inTurn hform hnamed hfields hq ha
  · obtain ⟨value, whole, hv, hwhole, rfl⟩ := setterReference_ok hs
    obtain ⟨habove, hset⟩ := Option.filter_eq_some_iff.mp hassign
    obtain ⟨hkind, hleft⟩ := of_decide_eq_true hset
    obtain ⟨haboveForm, hmem, haboveFields⟩ := hparent assignment habove
    refine ⟨assignment.start, assignment.stop, ⟨spanText_eq_ok.mp hwhole, rfl, ?_⟩, ?_⟩
    · exact setter_inTurn haboveForm hmem hleft hnamed hfields (haboveFields hkind) hq ha hv
    · rw [hassign]
      nofun

theorem commandReference_parted {reference : Reference} (hform : node.WellFormed source)
    (h : node.commandReference source = .ok reference) :
    reference.Parted source node.start node.stop := by
  obtain ⟨segments, text, hsegments, htext, rfl⟩ := commandReference_ok h
  refine ⟨text_eq_ok.mp htext, rfl, ?_⟩
  cases segments with
  | nil => exact .nil ..
  | cons segment rest => exact command_inTurn hform hsegments

theorem bareReference_parted {name : String} (h : node.text? source = some name) :
    (node.bareReference source name).Parted source node.start node.stop :=
  ⟨h, rfl, .nil ..⟩

/-! ## Walks -/

/-- **Parts in their extent.** On a tree that fits its source, with the parts of calls and of
assignments one behind the other, the references of a walk are those candidates that the filter
accepts. Each candidate is cut out between two offsets, and its receiver and its arguments are
texts that stand there in turn; where it is of a call with a block, and of no setter, it is cut off
before the block begins. -/
theorem parts_inside_extent {root : Node} {filter : Filter} {limit : Nat} {refs : List Reference}
    (hform : root.WellFormed source) (hfields : root.InFieldOrder)
    (h : (Extraction.ofSteps (root.walk source filter limit)).result = .ok refs) :
    refs = (root.positions.filterMap (root.candidateAt source)).filter filter.accepts ∧
    ∀ p node reference, root.nodeAt? p = some node →
      root.candidateAt source p = some reference →
      ∃ start stop, reference.Parted source start stop ∧
        (node.kind = "call" → node.assignment? (root.parentAt? p) = none →
          ∀ block ∈ node.child? "block", stop ≤ block.start) := by
  refine ⟨(walk_candidates h).2, ?_⟩
  intro p node reference hp hcandidate
  have hnode := hform.nodeAt hp
  obtain ⟨same, hsame, hcases⟩ := candidateAt_cases hcandidate
  obtain rfl := Option.some.inj (hp.symm.trans hsame)
  rcases hcases with ⟨hk, hcall⟩ | ⟨hk, hcommand⟩ | ⟨hk, name, htext, rfl⟩
  · have hparent : ∀ above ∈ root.parentAt? p, above.WellFormed source ∧
        node ∈ above.children ∧
        (above.ownKind = "assignment" → above.FieldsFollow ["left", "right"]) := by
      intro above habove
      obtain ⟨hup, hmem⟩ := parentAt?_spec hp habove
      exact ⟨hform.parentAt habove, hmem, (hfields above hup).2⟩
    obtain ⟨start, stop, hparted, hblock⟩ := callReference_parted hnode hparent
      ((hfields node (mem_preorder.mpr ⟨p, hp⟩)).1 hk) hcall
    exact ⟨start, stop, hparted, fun _ => hblock⟩
  · refine ⟨node.start, node.stop, commandReference_parted hnode hcommand, fun hother => ?_⟩
    exact absurd (hk.symm.trans hother) (by decide)
  · refine ⟨node.start, node.stop, bareReference_parted htext, fun hother => ?_⟩
    exact absurd (hk.symm.trans hother) (by decide)

set_option maxRecDepth 8000 in
/-- The call is cut off before its block, and the setter holds its receiver and the literal. -/
theorem attached_parts_inside :
    attachedTree.WellFormed attachedText ∧ attachedTree.InFieldOrder ∧
    (Extraction.ofSteps (attachedTree.walk attachedText .passThrough 9)).result =
      .ok attachedReferences ∧
    (∃ start stop, Reference.Parted attachedText
      ⟨.call, "each", some "q", some ["1", "2"], ⟨1, 0, 1, 12⟩, "q.each(1, 2)"⟩ start stop ∧
        stop ≤ 13) ∧
    ∃ start stop, Reference.Parted attachedText
      ⟨.call, "b=", some "f", some ["`x#\x7by\x7d`"], ⟨1, 15, 1, 28⟩, "f.b = `x#\x7by\x7d`"⟩
      start stop := by
  have hfields : attachedTree.InFieldOrder := by decide
  obtain ⟨-, hparts⟩ := parts_inside_extent attachedTree_wellFormed hfields attachedTree_walk
  obtain ⟨start, stop, hcall, hblock⟩ := hparts [0] _ _ rfl rfl
  obtain ⟨first, last, hsetter, -⟩ := hparts [0, 1, 4, 0] _ _ rfl rfl
  exact ⟨attachedTree_wellFormed, hfields, attachedTree_walk,
    ⟨start, stop, hcall, hblock rfl rfl _ rfl⟩, first, last, hsetter⟩

end Node
end CallSift
