import CallSift.Proofs.Syntax.Alias
import CallSift.Proofs.Walk.Recognition
import CallSift.Walk.Basic

/-!
# A walk does not see comments

Comments stand anywhere among the children of a node: between arguments, inside an
interpolation or a parameter list, between a receiver and its method. They have no field name, and
nothing that reads a node takes them for a part of it. Below an alias a traversal meets them under
the kind of the alias, which gives nothing either, unless it is a call: then the walk is stopped.

* `Node.withoutComments` is a tree, as it is met, whose comments are left out.
* `isComment_asMet`: the comments of a tree under its own kinds are left out of what is met.
* `visit_withoutComments`: each node gives the same without them, from the look-up of
  a child (`child?_withoutComments`) and the named children (`operands_withoutComments`) on.
* `walkFrom_withoutComments`: from it, by induction on the tree, a walk that ends well is the
  walk without them. Only a walk that is stopped may differ: a comment can lie too deep.
-/
namespace CallSift.Node

/-- A comment that is met as its parent is. In a node that stands as the arguments of a call such
a comment would be an argument. -/
def isMetAsParent (parent : NodeInfo) (node : Node) : Bool :=
  node.ownKind == "comment" && node.kind == parent.kind && aliasedKinds.contains node.kind &&
    !parent.fields.contains "arguments"

/-- A comment, which nothing lies below and which its parent lists under no field. -/
def isComment (parent : Option NodeInfo) (node : Node) : Bool :=
  (node.kind == "comment" || parent.any (isMetAsParent · node)) && node.children.isEmpty &&
    node.info.fields.isEmpty

mutual
/-- The tree without the comments below its root. -/
def withoutComments : Node → Node
  | mk info children => mk info (withoutCommentsAll (some info) children)
/-- The trees below a node without the comments at and below their roots. -/
def withoutCommentsAll (parent : Option NodeInfo) : List Node → List Node
  | [] => []
  | node :: rest =>
    if node.isComment parent then withoutCommentsAll parent rest
    else withoutComments node :: withoutCommentsAll parent rest
end

theorem isMetAsParent_iff {parent : NodeInfo} {node : Node} :
    node.isMetAsParent parent = true ↔ node.ownKind = "comment" ∧ node.kind = parent.kind ∧
      node.kind ∈ aliasedKinds ∧ "arguments" ∉ parent.fields := by
  simp only [isMetAsParent, Bool.and_eq_true, beq_iff_eq, List.contains_iff_mem,
    Bool.not_eq_true', ← Bool.not_eq_true, and_assoc]

theorem isComment_iff {parent : Option NodeInfo} {node : Node} :
    node.isComment parent = true ↔ (node.kind = "comment" ∨
      ∃ above, parent = some above ∧ node.isMetAsParent above = true) ∧
        node.children = [] ∧ node.info.fields = [] := by
  cases parent <;> simp [isComment, and_assoc]

theorem isComment_cases {parent : Option NodeInfo} {node : Node}
    (h : node.isComment parent = true) : ∃ info, node = mk info [] ∧ info.fields = [] ∧
      (info.kind = "comment" ∨ ∃ above, parent = some above ∧ info.kind = above.kind ∧
        info.kind ∈ aliasedKinds ∧ "arguments" ∉ above.fields) := by
  obtain ⟨info, children⟩ := node
  obtain ⟨hkind, hchildren, hfields⟩ := isComment_iff.mp h
  obtain rfl : children = [] := hchildren
  refine ⟨info, rfl, hfields, hkind.imp_right ?_⟩
  rintro ⟨above, rfl, habove⟩
  exact ⟨above, rfl, (isMetAsParent_iff.mp habove).2⟩

theorem withoutCommentsAll_eq (parent : Option NodeInfo) (nodes : List Node) :
    withoutCommentsAll parent nodes =
      (nodes.filter fun node => !node.isComment parent).map withoutComments := by
  induction nodes with
  | nil => rfl
  | cons node rest ih =>
    rw [withoutCommentsAll, ih]
    cases h : node.isComment parent <;> simp [h]

/-! ## Trees under their own kinds -/

/-- A comment of a tree under its own kinds is left out of what is met of the tree, unless it is
below an alias that stands as the arguments of a call. -/
theorem isComment_asMet {root parent node : Node} {up : Position} {i : Nat}
    (hown : ∀ node ∈ root.preorder, node.kind = node.ownKind)
    (hup : root.nodeAt? up = some parent) (hnode : root.nodeAt? (i :: up) = some node)
    (hcomment : node.isComment none = true) (harguments : parent.isField "arguments" = false) :
    (metFrom (root.metAt? (i :: up)) node).isComment
      (some (metFrom (root.metAt? up) parent).info) = true := by
  have hparent := hown parent (mem_preorder.mpr ⟨up, hup⟩)
  have hself := hown node (mem_preorder.mpr ⟨i :: up, hnode⟩)
  obtain ⟨hkind, hchildren, hfields⟩ := isComment_iff.mp hcomment
  replace hkind : node.kind = "comment" := hkind.resolve_right (by simp)
  refine isComment_iff.mpr ⟨?_, by rw [children_metFrom, hchildren]; rfl, ?_⟩
  · cases hmet : root.metAt? (i :: up) with
    | none => exact .inl (by rw [kind_metFrom, Option.getD_none, hkind])
    | some kind =>
      refine .inr ⟨_, rfl, isMetAsParent_iff.mpr ⟨?_, ?_, ?_, ?_⟩⟩
      · rw [ownKind_metFrom, ← hself, hkind]
      · rw [kind_metFrom, metAt?_eq_parent hup hmet, ← hparent]
        exact (kind_metFrom _ parent).symm
      · rw [kind_metFrom]
        exact mem_aliasedKinds_of_metAt? hmet
      · rw [fields_metFrom]
        intro hmem
        rw [isField, List.contains_iff_mem.mpr hmem] at harguments
        cases harguments
  · rw [fields_metFrom, hfields]

/-! ## One node -/

@[simp] theorem info_withoutComments (node : Node) : node.withoutComments.info = node.info := by
  cases node; rfl

@[simp] theorem kind_withoutComments (node : Node) : node.withoutComments.kind = node.kind := by
  cases node; rfl

@[simp] theorem ownKind_withoutComments (node : Node) :
    node.withoutComments.ownKind = node.ownKind := by
  cases node; rfl

@[simp] theorem isField_withoutComments (field : String) (node : Node) :
    node.withoutComments.isField field = node.isField field := by
  cases node; rfl

theorem children_withoutComments (node : Node) : node.withoutComments.children =
    (node.children.filter fun child => !child.isComment (some node.info)).map withoutComments := by
  cases node; exact withoutCommentsAll_eq _ _

/-- Children that are chosen by what they say about themselves, no comment among them, are
chosen among the children without comments. -/
theorem filter_children_withoutComments {keep : Node → Bool} {node : Node}
    (hinfo : ∀ child, keep child.withoutComments = keep child)
    (hcomment : ∀ child, child.isComment (some node.info) = true → keep child = false) :
    node.withoutComments.children.filter keep =
      (node.children.filter keep).map withoutComments := by
  rw [children_withoutComments, List.filter_map, List.filter_filter]
  congr 1
  apply List.filter_congr
  intro child _
  simp only [Function.comp_apply, hinfo]
  cases h : child.isComment (some node.info)
  · simp
  · simp [hcomment child h]

theorem child?_withoutComments (node : Node) (field : String) :
    node.withoutComments.child? field = (node.child? field).map withoutComments := by
  unfold child?
  rw [← List.head?_filter, ← List.head?_filter, filter_children_withoutComments, List.head?_map]
  · exact isField_withoutComments field
  · intro child h
    obtain ⟨info, rfl, hfields, -⟩ := isComment_cases h
    simp [isField, Node.info, hfields]

/-- A node whose operands are read: the arguments of a call, or an interpolation. -/
def HasOperands (node : Node) : Prop :=
  node.isField "arguments" = true ∨ node.kind = "interpolation"

/-- Among operands a comment is met under its own kind. -/
theorem HasOperands.kind_of_isComment {parent node : Node} (h : parent.HasOperands)
    (hcomment : node.isComment (some parent.info) = true) : node.kind = "comment" := by
  obtain ⟨info, rfl, -, hkind | ⟨above, habove, hsame, halias, harguments⟩⟩ :=
    isComment_cases hcomment
  · exact hkind
  · obtain rfl := Option.some.inj habove
    rcases h with hfield | hinterpolation
    · exact absurd (List.contains_iff_mem.mp hfield) harguments
    · rw [hsame, show parent.info.kind = _ from hinterpolation] at halias
      exact absurd halias (by decide)

theorem operands_withoutComments {node : Node} (h : node.HasOperands) :
    node.withoutComments.operands = node.operands.map withoutComments := by
  apply filter_children_withoutComments
  · intro child; simp
  · intro child hcomment
    simp [h.kind_of_isComment hcomment]

theorem interpolations_withoutComments (node : Node) :
    node.withoutComments.interpolations = node.interpolations.map withoutComments := by
  apply filter_children_withoutComments
  · intro child; simp
  · intro child h
    have hkind : child.kind ≠ "interpolation" := by
      obtain ⟨info, rfl, -, hkind | ⟨-, -, -, halias, -⟩⟩ := isComment_cases h
      · simp [kind, Node.info, hkind]
      · rintro hinterpolation
        rw [show info.kind = _ from hinterpolation] at halias
        exact absurd halias (by decide)
    simp [hkind]

theorem extentEnd_withoutComments (node : Node) :
    node.withoutComments.extentEnd = node.extentEnd.withoutComments := by
  unfold extentEnd
  simp only [child?_withoutComments]
  cases node.child? "block" with
  | none => rfl
  | some block => cases node.child? "arguments" <;> cases node.child? "method" <;> rfl

theorem assignment?_withoutComments (parent : Option Node) (node : Node) :
    node.withoutComments.assignment? (parent.map withoutComments) =
      (node.assignment? parent).map withoutComments := by
  unfold assignment?
  cases parent with
  | none => rfl
  | some parent =>
    simp only [Option.map_some, Option.filter_some, ownKind_withoutComments,
      isField_withoutComments]
    split <;> rfl

theorem role_withoutComments (parent : Option Node) (node : Node) :
    Role.of (parent.map withoutComments) node.withoutComments = Role.of parent node := by
  obtain ⟨info, children⟩ := node
  rcases parent with _ | ⟨above, siblings⟩
  · rfl
  · rfl

/-! ## What is read of a node -/

section
variable (source : Source)

@[simp] theorem spanText?_withoutComments (first last : Node) :
    spanText? source first.withoutComments last.withoutComments = spanText? source first last := by
  cases first; cases last; rfl

@[simp] theorem spanText_withoutComments (first last : Node) :
    spanText source first.withoutComments last.withoutComments = spanText source first last := by
  cases first; cases last; rfl

@[simp] theorem text?_withoutComments (node : Node) :
    node.withoutComments.text? source = node.text? source :=
  spanText?_withoutComments source node node

@[simp] theorem text_withoutComments (node : Node) :
    node.withoutComments.text source = node.text source :=
  spanText_withoutComments source node node

@[simp] theorem spanTo_withoutComments (first last : Node) :
    spanTo source first.withoutComments last.withoutComments = spanTo source first last := by
  cases first; cases last; rfl

@[simp] theorem firstLine_withoutComments (node : Node) :
    node.withoutComments.firstLine source = node.firstLine source := by
  cases node; rfl

@[simp] theorem fault_withoutComments (node : Node) (reason : WalkReason) :
    node.withoutComments.fault source reason = node.fault source reason := by
  cases node; rfl

/-- What reads the same of a node without comments, reads the same of an optional one. -/
theorem readOptional_withoutComments {α : Type} {read : Node → Except WalkFault α}
    {child : Option Node} (h : ∀ node ∈ child, read node.withoutComments = read node) :
    readOptional read (child.map withoutComments) = readOptional read child := by
  cases child with
  | none => rfl
  | some node => simp [readOptional, h node rfl]

theorem mapM_withoutComments {α : Type} {read : Node → Except WalkFault α} {nodes : List Node}
    (h : ∀ node ∈ nodes, read node.withoutComments = read node) :
    (nodes.map withoutComments).mapM read = nodes.mapM read := by
  rw [List.mapM_map]
  induction nodes with
  | nil => rfl
  | cons node rest ih =>
    obtain ⟨hnode, hrest⟩ := List.forall_mem_cons.mp h
    rw [List.mapM_cons, List.mapM_cons, ih hrest, Function.comp_apply, hnode]

theorem fieldText_withoutComments (node : Node) (field : String) :
    node.withoutComments.fieldText source field = node.fieldText source field := by
  unfold fieldText
  rw [child?_withoutComments]
  cases node.child? field <;> simp

theorem calledName_withoutComments (node : Node) :
    node.withoutComments.calledName source = node.calledName source := by
  unfold calledName
  simp only [child?_withoutComments]
  cases node.child? "method" with
  | some method => simp
  | none => cases node.child? "arguments" <;> simp

theorem argumentTexts_withoutComments {list : Node} (h : list.HasOperands) :
    list.withoutComments.argumentTexts source = list.argumentTexts source := by
  have hm : (list.operands.map withoutComments).mapM (text source) =
      list.operands.mapM (text source) :=
    mapM_withoutComments fun node _ => text_withoutComments source node
  unfold argumentTexts
  rw [operands_withoutComments h]
  cases hoperands : list.operands with
  | nil => rfl
  | cons first rest =>
    rw [hoperands] at hm
    exact congrArg (Except.map some) hm

theorem setterReference_withoutComments (assignment : Node) (reference : Reference) :
    setterReference source assignment.withoutComments reference =
      setterReference source assignment reference := by
  unfold setterReference
  rw [child?_withoutComments,
    readOptional_withoutComments fun node _ => text_withoutComments source node]
  simp

theorem callReference_withoutComments (parent : Option Node) (node : Node) :
    node.withoutComments.callReference source (parent.map withoutComments) =
      node.callReference source parent := by
  have hreceiver : readOptional (text source) ((node.child? "receiver").map withoutComments) =
      readOptional (text source) (node.child? "receiver") :=
    readOptional_withoutComments fun receiver _ => text_withoutComments source receiver
  have harguments : readOptional (argumentTexts source)
      ((node.child? "arguments").map withoutComments) =
      readOptional (argumentTexts source) (node.child? "arguments") :=
    readOptional_withoutComments fun list hlist =>
      argumentTexts_withoutComments source (.inl (List.find?_some hlist))
  unfold callReference
  simp only [calledName_withoutComments, child?_withoutComments, extentEnd_withoutComments,
    assignment?_withoutComments, spanText_withoutComments, spanTo_withoutComments, hreceiver,
    harguments]
  cases node.assignment? parent with
  | none => rfl
  | some assignment => simp only [Option.map_some, setterReference_withoutComments]

theorem interpolationText_withoutComments {node : Node} (h : node.HasOperands) :
    node.withoutComments.interpolationText source = node.interpolationText source := by
  unfold interpolationText
  simp only [operands_withoutComments h, List.head?_map, List.getLast?_map]
  cases node.operands.head? with
  | none => rfl
  | some first => cases node.operands.getLast? <;> simp

theorem commandReference_withoutComments (node : Node) :
    node.withoutComments.commandReference source = node.commandReference source := by
  have hsegments : (node.interpolations.map withoutComments).mapM (interpolationText source) =
      node.interpolations.mapM (interpolationText source) := by
    refine mapM_withoutComments fun segment hsegment => ?_
    have hkind := (Bool.and_eq_true_iff.mp (List.mem_filter.mp hsegment).2).2
    exact interpolationText_withoutComments source (.inr (beq_iff_eq.mp hkind))
  unfold commandReference
  rw [interpolations_withoutComments, hsegments]
  simp

theorem visitIdentifier_withoutComments (filter : Filter) (parent : Option Node) (node : Node)
    (scopes : Scopes) :
    node.withoutComments.visitIdentifier source filter (parent.map withoutComments) scopes =
      node.visitIdentifier source filter parent scopes := by
  unfold visitIdentifier bareReference
  simp only [text_withoutComments, role_withoutComments, spanTo_withoutComments]

theorem visit_withoutComments (filter : Filter) (parent : Option Node) (node : Node)
    (scopes : Scopes) :
    node.withoutComments.visit source filter (parent.map withoutComments) scopes =
      node.visit source filter parent scopes := by
  unfold visit
  simp only [kind_withoutComments, callReference_withoutComments, commandReference_withoutComments,
    visitIdentifier_withoutComments, fieldText_withoutComments, firstLine_withoutComments]

end

/-! ## The walk -/

section
variable {source : Source} {filter : Filter} {limit depth : Nat} {scopes after : Scopes}

/-- A run that ends well does so at its first part, and from there on. -/
theorem andThen_ok {steps : Steps} {next : Scopes → Steps}
    (h : (steps.andThen next).ending = .ok after) :
    ∃ between, steps.ending = .ok between ∧ (next between).ending = .ok after ∧
      steps.andThen next = ⟨steps.findings ++ (next between).findings, .ok after⟩ := by
  unfold Steps.andThen at h ⊢
  cases hs : steps.ending with
  | error fault => simp only [hs] at h; cases h
  | ok between =>
    simp only [hs] at h ⊢
    exact ⟨between, rfl, h, by rw [h]⟩

/-- Without children a node met as a call has no name, and nothing else that is met where a comment
stands gives anything. -/
theorem visit_comment {parent : Option Node} {above : Option NodeInfo} {node : Node}
    (hcomment : node.isComment above = true)
    (h : (visit source filter parent node scopes).ending = .ok after) :
    visit source filter parent node scopes = .done scopes := by
  obtain ⟨info, rfl, -, hkind⟩ := isComment_cases hcomment
  have hkinds : info.kind = "comment" ∨ info.kind ∈ aliasedKinds :=
    hkind.imp_right fun ⟨_, _, _, halias, _⟩ => halias
  simp only [aliasedKinds, aliasKinds, patternKinds, List.cons_append, List.nil_append,
    List.mem_cons, List.not_mem_nil, or_false] at hkinds
  unfold visit at h ⊢
  rcases hkinds with hk | hk | hk | hk | hk | hk | hk | hk | hk
  all_goals simp only [kind, Node.info, hk] at h ⊢
  case inr.inl => cases h
  all_goals rfl

/-- A comment adds nothing to a walk that ends well. -/
theorem walkFrom_comment {parent : Option Node} {above : Option NodeInfo} {node : Node}
    (hcomment : node.isComment above = true)
    (h : (walkFrom source filter limit depth parent scopes node).ending = .ok after) :
    walkFrom source filter limit depth parent scopes node = .done scopes := by
  have hscope : ScopeKind.of? node.kind = none := by
    obtain ⟨info, rfl, -, hkind | ⟨-, -, -, halias, -⟩⟩ := isComment_cases hcomment
    · rw [show (mk info []).kind = _ from hkind]
      rfl
    · exact (show ∀ kind ∈ aliasedKinds, ScopeKind.of? kind = none by decide) _ halias
  obtain ⟨info, rfl, -⟩ := isComment_cases hcomment
  unfold walkFrom at h ⊢
  split at h
  · cases h
  · rename_i hd
    have henter : enterScope info scopes = scopes := by
      simp only [enterScope, show ScopeKind.of? info.kind = none from hscope]
    obtain ⟨below, hbelow, -⟩ := andThen_ok h
    obtain ⟨own, hown, -⟩ := andThen_ok hbelow
    rw [henter] at hown
    rw [if_neg hd, henter, visit_comment hcomment hown]
    simp only [walkAll, leaveScope, show ScopeKind.of? info.kind = none from hscope,
      Steps.andThen, Steps.done]
    rfl

/-- Runs whose first parts are the same, and whose second parts are the same from there on. -/
theorem andThen_congr {steps steps' : Steps} {next next' : Scopes → Steps}
    (h : (steps.andThen next).ending = .ok after)
    (hfirst : ∀ between, steps.ending = .ok between → steps' = steps)
    (hnext : ∀ between, (next between).ending = .ok after → next' between = next between) :
    steps'.andThen next' = steps.andThen next := by
  obtain ⟨between, hsteps, hbetween, -⟩ := andThen_ok h
  rw [hfirst between hsteps]
  unfold Steps.andThen
  simp only [hsteps, hnext between hbetween]

variable (source filter limit)

mutual
theorem walkFrom_withoutComments (depth : Nat) (parent : Option Node) :
    ∀ (node : Node) {scopes after : Scopes},
      (walkFrom source filter limit depth parent scopes node).ending = .ok after →
      walkFrom source filter limit depth (parent.map withoutComments) scopes
        node.withoutComments = walkFrom source filter limit depth parent scopes node
  | mk info children, scopes, after, h => by
    have hvisit := fun scopes =>
      visit_withoutComments source filter parent (mk info children) scopes
    unfold walkFrom at h
    split at h
    · cases h
    · rename_i hd
      rw [withoutComments, walkFrom, walkFrom, if_neg hd, if_neg hd]
      refine andThen_congr h ?_ (fun _ _ => rfl)
      intro below hbelow
      rw [← withoutComments, hvisit]
      refine andThen_congr hbelow (fun _ _ => rfl) ?_
      intro inner hinner
      exact walkAll_withoutComments (depth + 1) (mk info children) children hinner
theorem walkAll_withoutComments (depth : Nat) (parent : Node) :
    ∀ (nodes : List Node) {scopes after : Scopes},
      (walkAll source filter limit depth parent scopes nodes).ending = .ok after →
      walkAll source filter limit depth parent.withoutComments scopes
        (withoutCommentsAll (some parent.info) nodes) =
          walkAll source filter limit depth parent scopes nodes
  | [], _, _, _ => rfl
  | node :: rest, scopes, after, h => by
    unfold walkAll at h
    rw [walkAll]
    cases hcomment : node.isComment (some parent.info) with
    | true =>
      obtain ⟨between, hnode, hrest, -⟩ := andThen_ok h
      have hdone := walkFrom_comment hcomment hnode
      rw [hdone] at hnode ⊢
      cases hnode
      rw [withoutCommentsAll, if_pos hcomment, walkAll_withoutComments depth parent rest hrest]
      rfl
    | false =>
      rw [withoutCommentsAll, if_neg (by simp [hcomment]), walkAll]
      refine andThen_congr h ?_ ?_
      · intro between hnode
        exact walkFrom_withoutComments depth (some parent) node hnode
      · intro between hrest
        exact walkAll_withoutComments depth parent rest hrest
end

end

end CallSift.Node
