import CallSift.Proofs.Extraction
import CallSift.Proofs.Walk.Candidates
import CallSift.Proofs.Walk.Comments
import Mathlib.Data.List.Forall2

/-!
# Walks over two trees that differ in comments alone

Two sources that say the same with other spaces and comments have trees of the same shape once the
comments are left out, with the same names in them. Offsets, texts and depths differ, and so do the
spans and texts of the references; what is called, and with how many arguments, does not.

* `Alike` relates two such trees, node by node; `alike_iff` takes a pair apart.
* `Agree` says what two references have in common. Two calls give references that agree
  (`callReference_alike`), and so do two backtick literals (`commandReference_alike`).
* `Parallel` relates two runs: when both end well, then with the same frames and with references
  that agree in order. `visit_alike` is the step, and `walkFrom_alike` follows by induction on
  the trees.
* `comments_transparent`: the walks over two trees that are alike without their comments.
-/
namespace CallSift.Node

/-- Two nodes of one form, with the same name when they are identifiers or calls. -/
structure Corresponds (source source' : Source) (node node' : Node) : Prop where
  kind : node.kind = node'.kind
  ownKind : node.ownKind = node'.ownKind
  named : node.info.named = node'.info.named
  fields : node.info.fields = node'.info.fields
  name : node.kind = "identifier" → node.text? source = node'.text? source'
  method : node.kind = "call" → (node.child? "method").map (text? source) =
    (node'.child? "method").map (text? source')

mutual
/-- Two trees of one shape, whose nodes correspond. -/
def Alike (source source' : Source) : Node → Node → Prop
  | mk info children, mk info' children' =>
    Corresponds source source' (mk info children) (mk info' children') ∧
      AlikeAll source source' children children'
/-- Lists of as many trees, alike in order. -/
def AlikeAll (source source' : Source) : List Node → List Node → Prop
  | [], [] => True
  | node :: rest, node' :: rest' => Alike source source' node node' ∧
      AlikeAll source source' rest rest'
  | _, _ => False
end

/-- What two references have in common when their sources differ in spaces and comments alone. -/
structure Agree (reference reference' : Reference) : Prop where
  shape : reference.shape = reference'.shape
  name : reference.name = reference'.name
  qualifier : reference.qualifier.isSome = reference'.qualifier.isSome
  arguments : reference.arguments.isSome = reference'.arguments.isSome
  count : reference.arguments.map List.length = reference'.arguments.map List.length

section
variable {source source' : Source}

instance (node node' : Node) : Decidable (Corresponds source source' node node') :=
  decidable_of_iff (node.kind = node'.kind ∧ node.ownKind = node'.ownKind ∧
      node.info.named = node'.info.named ∧ node.info.fields = node'.info.fields ∧
      (node.kind = "identifier" → node.text? source = node'.text? source') ∧
      (node.kind = "call" → (node.child? "method").map (text? source) =
        (node'.child? "method").map (text? source')))
    ⟨fun ⟨h1, h2, h3, h4, h5, h6⟩ => ⟨h1, h2, h3, h4, h5, h6⟩,
      fun h => ⟨h.kind, h.ownKind, h.named, h.fields, h.name, h.method⟩⟩

mutual
instance decideAlike : ∀ node node' : Node, Decidable (Alike source source' node node')
  | mk info children, mk info' children' =>
    have := decideAlikeAll children children'
    inferInstanceAs (Decidable (Corresponds source source' (mk info children) (mk info' children') ∧
      AlikeAll source source' children children'))
instance decideAlikeAll : ∀ nodes nodes' : List Node,
    Decidable (AlikeAll source source' nodes nodes')
  | [], [] => isTrue trivial
  | [], _ :: _ => isFalse id
  | _ :: _, [] => isFalse id
  | node :: rest, node' :: rest' =>
    have := decideAlike node node'
    have := decideAlikeAll rest rest'
    inferInstanceAs (Decidable (Alike source source' node node' ∧
      AlikeAll source source' rest rest'))
end

theorem alikeAll_iff : ∀ {nodes nodes' : List Node},
    AlikeAll source source' nodes nodes' ↔ List.Forall₂ (Alike source source') nodes nodes'
  | [], [] => by simp [AlikeAll]
  | [], _ :: _ => by simp [AlikeAll]
  | _ :: _, [] => by simp [AlikeAll]
  | node :: rest, node' :: rest' => by
    rw [AlikeAll, List.forall₂_cons, alikeAll_iff]

theorem alike_iff {node node' : Node} : Alike source source' node node' ↔
    Corresponds source source' node node' ∧
      List.Forall₂ (Alike source source') node.children node'.children := by
  obtain ⟨info, children⟩ := node
  obtain ⟨info', children'⟩ := node'
  rw [Alike, alikeAll_iff]
  exact Iff.rfl

theorem Alike.corresponds {node node' : Node} (h : Alike source source' node node') :
    Corresponds source source' node node' := (alike_iff.mp h).1

theorem Alike.children {node node' : Node} (h : Alike source source' node node') :
    List.Forall₂ (Alike source source') node.children node'.children := (alike_iff.mp h).2

theorem Corresponds.isField {node node' : Node} (h : Corresponds source source' node node')
    (field : String) : node.isField field = node'.isField field := by
  unfold Node.isField
  rw [h.fields]

/-! ## What is read of two nodes -/

/-- The children that are chosen by what they say about themselves. -/
theorem Alike.filter_children {node node' : Node} (h : Alike source source' node node')
    {keep : Node → Bool} (hkeep : ∀ child child', Corresponds source source' child child' →
      keep child = keep child') :
    List.Forall₂ (Alike source source') (node.children.filter keep)
      (node'.children.filter keep) := by
  refine List.rel_filter ?_ h.children
  intro child child' hchild
  simp only [hkeep child child' hchild.corresponds]

theorem Alike.operands {node node' : Node} (h : Alike source source' node node') :
    List.Forall₂ (Alike source source') node.operands node'.operands := by
  apply h.filter_children
  intro child child' hchild
  rw [hchild.named, hchild.kind]

theorem Alike.interpolations {node node' : Node} (h : Alike source source' node node') :
    List.Forall₂ (Alike source source') node.interpolations node'.interpolations := by
  apply h.filter_children
  intro child child' hchild
  rw [hchild.named, hchild.kind]

theorem Alike.child? {node node' : Node} (h : Alike source source' node node') (field : String) :
    Option.Rel (Alike source source') (node.child? field) (node'.child? field) := by
  have hfilter : List.Forall₂ (Alike source source') (node.children.filter (isField field))
      (node'.children.filter (isField field)) := h.filter_children fun _ _ hc => hc.isField field
  unfold Node.child?
  rw [← List.head?_filter, ← List.head?_filter]
  generalize node.children.filter _ = chosen at hfilter ⊢
  generalize node'.children.filter _ = chosen' at hfilter ⊢
  cases hfilter with
  | nil => exact .none
  | cons hfirst _ => exact .some hfirst

/-- An optional node is read in both trees or in neither. -/
theorem readOptional_isSome {α : Type} {read read' : Node → Except WalkFault α}
    {child child' : Option Node} {value value' : Option α}
    (hrel : Option.Rel (Alike source source') child child')
    (h : readOptional read child = .ok value) (h' : readOptional read' child' = .ok value') :
    value.isSome = value'.isSome := by
  cases hrel with
  | none => cases h; cases h'; rfl
  | some _ =>
    obtain ⟨a, -, rfl⟩ := map_eq_ok.mp h
    obtain ⟨a', -, rfl⟩ := map_eq_ok.mp h'
    rfl

theorem calledName_alike {node node' : Node} {name name' : Option String}
    (halike : Alike source source' node node') (hk : node.kind = "call")
    (h : node.calledName source = .ok name) (h' : node'.calledName source' = .ok name') :
    name = name' := by
  have htext := halike.corresponds.method hk
  have hmethod := halike.child? "method"
  have harguments := halike.child? "arguments"
  unfold calledName at h h'
  cases hm : node.child? "method" with
  | none =>
    simp only [hm] at h hmethod
    generalize node'.child? "method" = method' at h' hmethod
    cases hmethod
    generalize node.child? "arguments" = list at h harguments
    generalize node'.child? "arguments" = list' at h' harguments
    cases harguments with
    | none => cases h
    | some _ => cases h; cases h'; rfl
  | some method =>
    simp only [hm] at h hmethod htext
    generalize node'.child? "method" = method' at h' hmethod htext
    cases hmethod with | @some _ method' hmethod =>
    have hkind := hmethod.corresponds.kind
    by_cases hs : method.kind = "super"
    · simp only [hs, if_true] at h
      simp only [← hkind, hs, if_true] at h'
      cases h; cases h'; rfl
    · simp only [hs, if_false, map_eq_ok, text_eq_ok] at h
      simp only [← hkind, hs, if_false, map_eq_ok, text_eq_ok] at h'
      obtain ⟨called, hcalled, rfl⟩ := h
      obtain ⟨called', hcalled', rfl⟩ := h'
      simp only [Option.map_some, hcalled, hcalled', Option.some.injEq] at htext
      rw [htext]

/-- Argument lists that are alike are both empty or have as many arguments. -/
theorem argumentTexts_alike {list list' : Node} {texts texts' : Option (List String)}
    (halike : Alike source source' list list')
    (h : list.argumentTexts source = .ok texts) (h' : list'.argumentTexts source' = .ok texts') :
    texts.map List.length = texts'.map List.length := by
  have hoperands := halike.operands
  unfold argumentTexts at h h'
  generalize list.operands = operands at h hoperands
  generalize list'.operands = operands' at h' hoperands
  have hlength := hoperands.length_eq
  cases hoperands with
  | nil => cases h; cases h'; rfl
  | cons _ _ =>
    obtain ⟨read, hread, rfl⟩ := map_eq_ok.mp h
    obtain ⟨read', hread', rfl⟩ := map_eq_ok.mp h'
    rw [Option.map_some, Option.map_some, (mapM_ok hread).1, (mapM_ok hread').1, hlength]

theorem arguments_alike {list list' : Option Node} {texts texts' : Option (Option (List String))}
    (hrel : Option.Rel (Alike source source') list list')
    (h : readOptional (argumentTexts source) list = .ok texts)
    (h' : readOptional (argumentTexts source') list' = .ok texts') :
    texts.join.map List.length = texts'.join.map List.length := by
  cases hrel with
  | none => cases h; cases h'; rfl
  | some halike =>
    obtain ⟨read, hread, rfl⟩ := map_eq_ok.mp h
    obtain ⟨read', hread', rfl⟩ := map_eq_ok.mp h'
    exact argumentTexts_alike halike hread hread'

theorem assignment?_alike {parent parent' : Option Node} {node node' : Node}
    (hparent : Option.Rel (Alike source source') parent parent')
    (halike : Alike source source' node node') :
    Option.Rel (Alike source source') (node.assignment? parent) (node'.assignment? parent') := by
  unfold assignment?
  cases hparent with
  | none => exact .none
  | some hparent =>
    rw [Option.filter_some, Option.filter_some, hparent.corresponds.ownKind,
      halike.corresponds.isField "left"]
    split
    · exact .some hparent
    · exact .none

/-! ## The references of two nodes -/

/-- The presence of arguments follows from their number. -/
theorem Agree.of_count {reference reference' : Reference}
    (shape : reference.shape = reference'.shape) (name : reference.name = reference'.name)
    (qualifier : reference.qualifier.isSome = reference'.qualifier.isSome)
    (count : reference.arguments.map List.length = reference'.arguments.map List.length) :
    Agree reference reference' where
  shape := shape
  name := name
  qualifier := qualifier
  arguments := by
    rw [← Option.isSome_map (f := List.length), count, Option.isSome_map]
  count := count

theorem setterReference_alike {assignment assignment' : Node} {call call' : Reference}
    {setter setter' : Reference} (halike : Alike source source' assignment assignment')
    (hcall : Agree call call') (h : setterReference source assignment call = .ok setter)
    (h' : setterReference source' assignment' call' = .ok setter') : Agree setter setter' := by
  obtain ⟨value, whole, hvalue, -, rfl⟩ := setterReference_ok h
  obtain ⟨value', whole', hvalue', -, rfl⟩ := setterReference_ok h'
  have hright := readOptional_isSome (halike.child? "right") hvalue hvalue'
  refine .of_count hcall.shape (by rw [hcall.name]) hcall.qualifier ?_
  cases value <;> cases value' <;> simp_all [hcall.count]

theorem callReference_alike {parent parent' : Option Node} {node node' : Node}
    {reference reference' : Option Reference}
    (hparent : Option.Rel (Alike source source') parent parent')
    (halike : Alike source source' node node') (hk : node.kind = "call")
    (h : node.callReference source parent = .ok reference)
    (h' : node'.callReference source' parent' = .ok reference') :
    Option.Rel Agree reference reference' := by
  have hparentless : ∀ name name', node.calledName source = .ok name →
      node'.calledName source' = .ok name' → name = name' := fun _ _ =>
    calledName_alike halike hk
  cases reference with
  | none =>
    have hnone : node.calledName source = .ok none :=
      calledName_none.mpr (callReference_none.mp h)
    cases reference' with
    | none => exact .none
    | some reference' =>
      obtain ⟨name', -, -, -, hname', -⟩ := callReference_some h'
      cases hparentless _ _ hnone hname'
  | some reference =>
    obtain ⟨name, qualifier, arguments, text, hname, hq, ha, -, href⟩ := callReference_some h
    cases reference' with
    | none =>
      have hnone : node'.calledName source' = .ok none :=
        calledName_none.mpr (callReference_none.mp h')
      cases hparentless _ _ hname hnone
    | some reference' =>
      obtain ⟨name', qualifier', arguments', text', hname', hq', ha', -, href'⟩ :=
        callReference_some h'
      cases hparentless _ _ hname hname'
      have hcall : Agree (node.plainCall source name qualifier arguments.join text)
          (node'.plainCall source' name qualifier' arguments'.join text') :=
        .of_count rfl rfl (readOptional_isSome (halike.child? "receiver") hq hq')
          (arguments_alike (halike.child? "arguments") ha ha')
      have hassign := assignment?_alike hparent halike
      rcases href with ⟨hplain, rfl⟩ | ⟨assignment, hsome, hset⟩
      · rcases href' with ⟨-, rfl⟩ | ⟨assignment', hsome', -⟩
        · exact .some hcall
        · rw [hplain, hsome'] at hassign
          cases hassign
      · rcases href' with ⟨hplain', -⟩ | ⟨assignment', hsome', hset'⟩
        · rw [hsome, hplain'] at hassign
          cases hassign
        · rw [hsome, hsome'] at hassign
          cases hassign with
          | some hassign => exact .some (setterReference_alike hassign hcall hset hset')

theorem commandReference_alike {node node' : Node} {reference reference' : Reference}
    (halike : Alike source source' node node') (h : node.commandReference source = .ok reference)
    (h' : node'.commandReference source' = .ok reference') : Agree reference reference' := by
  obtain ⟨segments, text, hsegments, -, rfl⟩ := commandReference_ok h
  obtain ⟨segments', text', hsegments', -, rfl⟩ := commandReference_ok h'
  have hlength : segments.length = segments'.length := by
    rw [(mapM_ok hsegments).1, (mapM_ok hsegments').1, halike.interpolations.length_eq]
  refine .of_count rfl rfl rfl ?_
  cases segments <;> cases segments' <;> simp_all

theorem role_alike {parent parent' : Option Node} {node node' : Node}
    (hparent : Option.Rel (Alike source source') parent parent')
    (halike : Alike source source' node node') : Role.of parent node = Role.of parent' node' := by
  cases hparent with
  | none => rfl
  | some hparent =>
    unfold Role.of Role.under
    simp only [hparent.corresponds.ownKind, halike.corresponds.isField]

/-! ## Two runs -/

/-- The references among findings. -/
def referencesOf (findings : List Finding) : List Reference :=
  findings.filterMap Finding.reference?

/-- Two runs that end with the same frames and with references that agree in order, when both
end well. -/
def Parallel (steps steps' : Steps) : Prop := ∀ scopes scopes' : Scopes,
  steps.ending = .ok scopes → steps'.ending = .ok scopes' → scopes = scopes' ∧
    List.Forall₂ Agree (referencesOf steps.findings) (referencesOf steps'.findings)

theorem Parallel.failed_left (fault : WalkFault) (steps : Steps) :
    Parallel (.failed fault) steps := by
  intro scopes scopes' h _
  cases h

theorem Parallel.failed_right (fault : WalkFault) (steps : Steps) :
    Parallel steps (.failed fault) := by
  intro scopes scopes' _ h
  cases h

theorem Parallel.done (scopes : Scopes) : Parallel (.done scopes) (.done scopes) := by
  intro after after' h h'
  cases h; cases h'
  exact ⟨rfl, .nil⟩

theorem Parallel.offer {reference reference' : Reference} (h : Agree reference reference')
    (scopes : Scopes) : Parallel (.offer .passThrough reference scopes)
      (.offer .passThrough reference' scopes) := by
  intro after after' hend hend'
  cases hend; cases hend'
  exact ⟨rfl, .cons h .nil⟩

theorem Parallel.andThen {steps steps' : Steps} {next next' : Scopes → Steps}
    (hfirst : Parallel steps steps') (hnext : ∀ scopes, Parallel (next scopes) (next' scopes)) :
    Parallel (steps.andThen next) (steps'.andThen next') := by
  intro after after' h h'
  obtain ⟨between, hsteps, hend, heq⟩ := andThen_ok h
  obtain ⟨between', hsteps', hend', heq'⟩ := andThen_ok h'
  obtain ⟨rfl, hagree⟩ := hfirst between between' hsteps hsteps'
  obtain ⟨rfl, hagree'⟩ := hnext between after after' hend hend'
  refine ⟨rfl, ?_⟩
  rw [heq, heq']
  unfold referencesOf at hagree hagree' ⊢
  rw [List.filterMap_append, List.filterMap_append]
  exact List.rel_append hagree hagree'

theorem visitIdentifier_alike {parent parent' : Option Node} {node node' : Node}
    (hparent : Option.Rel (Alike source source') parent parent')
    (halike : Alike source source' node node') (hk : node.kind = "identifier") (scopes : Scopes) :
    Parallel (.ofExcept (node.visitIdentifier source .passThrough parent scopes))
      (.ofExcept (node'.visitIdentifier source' .passThrough parent' scopes)) := by
  have hname := halike.corresponds.name hk
  have hrole := role_alike hparent halike
  unfold visitIdentifier
  cases ht : node.text source with
  | error fault => exact .failed_left fault _
  | ok name =>
    cases ht' : node'.text source' with
    | error fault => exact .failed_right fault _
    | ok name' =>
      rw [text_eq_ok.mp ht, text_eq_ok.mp ht', Option.some.injEq] at hname
      subst hname
      simp only [Except.map, Steps.ofExcept, ← hrole]
      cases Role.of parent node with
      | binding => exact .done _
      | name => exact .done _
      | receiver => exact .done _
      | read =>
        simp only
        split
        · exact .done _
        · have hbare : Agree (node.bareReference source name) (node'.bareReference source' name) :=
            .of_count rfl rfl rfl rfl
          exact .offer hbare scopes

/-- Two nodes that are alike are visited alike. -/
theorem visit_alike {parent parent' : Option Node} {node node' : Node}
    (hparent : Option.Rel (Alike source source') parent parent')
    (halike : Alike source source' node node') (scopes : Scopes) :
    Parallel (node.visit source .passThrough parent scopes)
      (node'.visit source' .passThrough parent' scopes) := by
  unfold visit
  rw [← halike.corresponds.kind]
  split
  · rename_i hk
    cases hc : node.callReference source parent with
    | error fault => exact .failed_left fault _
    | ok reference =>
      cases hc' : node'.callReference source' parent' with
      | error fault => exact .failed_right fault _
      | ok reference' =>
        have hagree := callReference_alike hparent halike hk hc hc'
        cases hagree with
        | none => exact .done scopes
        | some hagree => exact .offer hagree scopes
  · rename_i hk
    cases hc : node.commandReference source with
    | error fault => exact .failed_left fault _
    | ok reference =>
      cases hc' : node'.commandReference source' with
      | error fault => exact .failed_right fault _
      | ok reference' => exact .offer (commandReference_alike halike hc hc') scopes
  · rename_i hk
    exact visitIdentifier_alike hparent halike hk scopes
  · intro after after' h h'
    cases h; cases h'
    exact ⟨rfl, .nil⟩
  · intro after after' h h'
    cases h; cases h'
    exact ⟨rfl, .nil⟩
  · exact .done scopes

variable (limit limit' : Nat)

mutual
theorem walkFrom_alike {parent parent' : Option Node} (depth depth' : Nat) (scopes : Scopes)
    (hparent : Option.Rel (Alike source source') parent parent') : ∀ {node node' : Node},
    Alike source source' node node' →
      Parallel (walkFrom source .passThrough limit depth parent scopes node)
        (walkFrom source' .passThrough limit' depth' parent' scopes node')
  | mk info children, mk info' children', halike => by
    have hkind : info.kind = info'.kind := halike.corresponds.kind
    have henter : enterScope info scopes = enterScope info' scopes := by
      unfold enterScope; rw [hkind]
    have hleave : leaveScope info = leaveScope info' := by
      funext scopes; unfold leaveScope; rw [hkind]
    unfold walkFrom
    split
    · exact .failed_left _ _
    split
    · exact .failed_right _ _
    rw [henter, hleave]
    refine .andThen (.andThen (visit_alike hparent halike _) ?_) fun _ => .done _
    intro inner
    exact walkAll_alike (depth + 1) (depth' + 1) halike inner (alikeAll_iff.mpr halike.children)
theorem walkAll_alike {parent parent' : Node} (depth depth' : Nat)
    (hparent : Alike source source' parent parent') (scopes : Scopes) :
    ∀ {nodes nodes' : List Node}, AlikeAll source source' nodes nodes' →
      Parallel (walkAll source .passThrough limit depth parent scopes nodes)
        (walkAll source' .passThrough limit' depth' parent' scopes nodes')
  | [], [], _ => .done scopes
  | node :: rest, node' :: rest', halike => by
    rw [AlikeAll] at halike
    unfold walkAll
    refine .andThen (walkFrom_alike depth depth' scopes (.some hparent) halike.1) ?_
    intro after
    exact walkAll_alike depth depth' hparent after halike.2
end

end

/-- **Comments.** Take two sources with their trees, as a traversal meets them, that differ in
spaces and comments alone: without comments, the trees have one shape, and the names of identifiers
and of calls are the same. Kinds are those that nodes are met as: a comment below an alias is left
out under the kind of the alias, and calls are all that is met as one. When both walks end well,
they return references that agree one by one: on the shape, the name, the presence of a receiver,
and on the arguments, whether there are any and how many. -/
theorem comments_transparent {source source' : Source} {root root' : Node} {limit limit' : Nat}
    {refs refs' : List Reference}
    (halike : AlikeAll source source' (withoutCommentsAll none [root])
      (withoutCommentsAll none [root']))
    (h : (Extraction.ofSteps (root.walk source .passThrough limit)).result = .ok refs)
    (h' : (Extraction.ofSteps (root'.walk source' .passThrough limit')).result = .ok refs') :
    refs.length = refs'.length ∧ List.Forall₂ Agree refs refs' := by
  suffices hagree : List.Forall₂ Agree refs refs' from ⟨hagree.length_eq, hagree⟩
  obtain ⟨scopes, hend, rfl⟩ := Extraction.ofSteps_ok h
  obtain ⟨scopes', hend', rfl⟩ := Extraction.ofSteps_ok h'
  unfold walk at hend hend' ⊢
  cases hcomment : root.isComment none with
  | true =>
    cases hcomment' : root'.isComment none with
    | true =>
      rw [walkFrom_comment hcomment hend, walkFrom_comment hcomment' hend']
      exact .nil
    | false => simp [withoutCommentsAll, hcomment, hcomment', AlikeAll] at halike
  | false =>
    cases hcomment' : root'.isComment none with
    | true => simp [withoutCommentsAll, hcomment, hcomment', AlikeAll] at halike
    | false =>
      simp only [withoutCommentsAll, hcomment, hcomment'] at halike
      have hwalk := walkFrom_withoutComments source .passThrough limit 0 none root hend
      have hwalk' := walkFrom_withoutComments source' .passThrough limit' 0 none root' hend'
      rw [← hwalk] at hend ⊢
      rw [← hwalk'] at hend' ⊢
      exact (walkFrom_alike limit limit' 0 0 .top .none halike.1 _ _ hend hend').2

def plainText : Source := .ofString "->(a) do q.f(1, 2) end"

/-- The tree of `plainText`. -/
def plainTree : Node :=
  branch "program" 0 22 []
    [branch "lambda" 0 22 []
      [token "->" 0 2,
       branch "lambda_parameters" 2 5 ["parameters"]
        [token "(" 2 3, leaf "identifier" 3 4 [], token ")" 4 5],
       branch "do_block" 6 22 ["body"]
        [token "do" 6 8,
         branch "body_statement" 9 18 ["body"]
          [branch "call" 9 18 []
            [leaf "identifier" 9 10 ["receiver"], token "." 10 11,
             leaf "identifier" 11 12 ["method"],
             branch "argument_list" 12 18 ["arguments"]
              [token "(" 12 13, leaf "integer" 13 14 [], token "," 14 15, leaf "integer" 16 17 [],
               token ")" 17 18]]],
         token "end" 19 22]]]

def commentedText : Source := .ofString "->(a # n\n) do q.f(1, # n\n2) end"

/-- The tree of `commentedText`. -/
def commentedTree : Node :=
  branch "program" 0 31 []
    [branch "lambda" 0 31 []
      [token "->" 0 2,
       branch "lambda_parameters" 2 10 ["parameters"]
        [token "(" 2 3, leaf "identifier" 3 4 [], leaf "comment" 5 8 [], token ")" 9 10],
       branch "do_block" 11 31 ["body"]
        [token "do" 11 13,
         branch "body_statement" 14 27 ["body"]
          [branch "call" 14 27 []
            [leaf "identifier" 14 15 ["receiver"], token "." 15 16,
             leaf "identifier" 16 17 ["method"],
             branch "argument_list" 17 27 ["arguments"]
              [token "(" 17 18, leaf "integer" 18 19 [], token "," 19 20,
               leaf "comment" 21 24 [], leaf "integer" 25 26 [], token ")" 26 27]]],
         token "end" 28 31]]]

/-- A comment between two arguments, which is none itself, and one among the parameters of a lambda,
which a traversal meets as parameters. -/
theorem comment_between_arguments :
    AlikeAll plainText commentedText (withoutCommentsAll none [plainTree.asMet])
        (withoutCommentsAll none [commentedTree.asMet]) ∧
      ∃ refs refs',
        (Extraction.ofSteps (plainTree.asMet.walk plainText .passThrough 9)).result = .ok refs ∧
        (Extraction.ofSteps (commentedTree.asMet.walk commentedText .passThrough 9)).result =
          .ok refs' ∧
        refs.map (·.arguments) = [some ["1", "2"]] ∧
        refs.length = refs'.length ∧ List.Forall₂ Agree refs refs' := by
  have halike : AlikeAll plainText commentedText (withoutCommentsAll none [plainTree.asMet])
      (withoutCommentsAll none [commentedTree.asMet]) := by decide
  have h : (Extraction.ofSteps (plainTree.asMet.walk plainText .passThrough 9)).result = .ok _ :=
    rfl
  have h' : (Extraction.ofSteps (commentedTree.asMet.walk commentedText .passThrough 9)).result =
      .ok _ := rfl
  exact ⟨halike, _, _, h, h', rfl, comments_transparent halike h h'⟩

end CallSift.Node
