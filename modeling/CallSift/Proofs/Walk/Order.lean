import CallSift.Proofs.Source.Extent
import CallSift.Proofs.Syntax.WellFormed
import CallSift.Proofs.Walk.Candidates

/-!
# References in the order of the source

The nodes of a tree that fits its source start one behind the other in pre-order, and a
candidate starts where its node does. Only a setter starts elsewhere: with the assignment
that it is the left side of. As nothing comes between an assignment and its first child,
the setter still stands where its place in pre-order is.

* `Node.LeftFirst`: the left sides of assignments come first in them.
* `candidateAt_start`: the node that a candidate starts with.
* `start_le`: the nodes that candidates start with keep the order of the candidates.
* `references_in_source_order`: so references start one behind the other.
-/
namespace CallSift.Node

open Position

/-- The left side of an assignment is its first child. -/
def LeftFirst (root : Node) : Prop := ∀ node ∈ root.preorder, node.ownKind = "assignment" →
  ∀ child ∈ node.children.tail, child.isField "left" = false

instance (root : Node) : Decidable root.LeftFirst :=
  inferInstanceAs (Decidable (∀ node ∈ root.preorder, node.ownKind = "assignment" →
    ∀ child ∈ node.children.tail, child.isField "left" = false))

variable {source : Source} {root : Node}

/-! ## Where candidates start -/

/-- An extent starts with a node. -/
structure StartsWith (source : Source) (node : Node) (span : Span) : Prop where
  line : span.line = source.row node.start + 1
  column : span.column = source.column node.start

theorem spanTo_startsWith (source : Source) (first last : Node) :
    StartsWith source first (first.spanTo source last) := ⟨rfl, rfl⟩

/-- An assignment that a node is the left side of has it for its first child. -/
theorem assignment?_position (hleft : root.LeftFirst) {p : Position} {node assignment : Node}
    (hp : root.nodeAt? p = some node)
    (h : node.assignment? (root.parentAt? p) = some assignment) :
    ∃ up, p = 0 :: up ∧ root.nodeAt? up = some assignment := by
  obtain ⟨hparent, hfields⟩ := Option.filter_eq_some_iff.mp h
  obtain ⟨hkind, hfield⟩ := of_decide_eq_true hfields
  cases p with
  | nil => cases hparent
  | cons i up =>
    obtain ⟨parent, hup, hi⟩ := Option.bind_eq_some_iff.mp hp
    obtain rfl := Option.some.inj (hup.symm.trans hparent)
    cases i with
    | zero => exact ⟨up, rfl, hup⟩
    | succ i =>
      have hmem : node ∈ parent.children.tail := by
        rw [← List.getElem?_tail] at hi
        exact List.mem_of_getElem? hi
      have hnot := hleft parent (mem_preorder.mpr ⟨up, hup⟩) hkind node hmem
      rw [hfield] at hnot
      cases hnot

/-- A candidate starts with its own node, or with the node whose first child that is. -/
theorem candidateAt_start (hleft : root.LeftFirst) {p : Position} {reference : Reference}
    (h : root.candidateAt source p = some reference) :
    ∃ q first, (p = q ∨ p = 0 :: q) ∧ root.nodeAt? q = some first ∧
      StartsWith source first reference.span := by
  obtain ⟨node, hp, hcases⟩ := candidateAt_cases h
  rcases hcases with ⟨-, hcall⟩ | ⟨-, hcommand⟩ | ⟨-, name, -, rfl⟩
  · obtain ⟨name, qualifier, arguments, text, -, -, -, -, hr⟩ := callReference_some hcall
    rcases hr with ⟨-, rfl⟩ | ⟨assignment, hassign, hs⟩
    · exact ⟨p, node, .inl rfl, hp, spanTo_startsWith ..⟩
    · obtain ⟨up, rfl, hup⟩ := assignment?_position hleft hp hassign
      obtain ⟨value, whole, -, -, rfl⟩ := setterReference_ok hs
      exact ⟨up, assignment, .inr rfl, hup, spanTo_startsWith ..⟩
  · obtain ⟨segments, text, -, -, rfl⟩ := commandReference_ok hcommand
    exact ⟨p, node, .inl rfl, hp, spanTo_startsWith ..⟩
  · exact ⟨p, node, .inl rfl, hp, spanTo_startsWith ..⟩

/-! ## Their order -/

/-- Nodes that start one behind the other show in the places where their extents start. -/
theorem StartsWith.place_le {first second : Node} {span other : Span}
    (hfirst : StartsWith source first span) (hsecond : StartsWith source second other)
    (hfirstIn : first.WellFormed source) (hsecondIn : second.WellFormed source)
    (hle : first.start ≤ second.start) :
    span.line < other.line ∨ span.line = other.line ∧ span.column ≤ other.column := by
  rw [hfirst.line, hfirst.column, hsecond.line, hsecond.column]
  rcases Source.place_le hfirstIn.fits.start hsecondIn.fits.start hle with hrow | ⟨hrow, hcolumn⟩
  · exact .inl (Nat.add_lt_add_right hrow 1)
  · exact .inr ⟨congrArg (· + 1) hrow, hcolumn⟩

section
variable (hform : root.WellFormed source)
include hform

theorem start_le_of_firstChild {p q : Position} {node first : Node} (h : p = q ∨ p = 0 :: q)
    (hp : root.nodeAt? p = some node) (hq : root.nodeAt? q = some first) :
    first.start ≤ node.start := by
  rcases h with rfl | rfl
  · obtain rfl := Option.some.inj (hp.symm.trans hq)
    exact Nat.le_refl _
  · refine hform.start_le_of_before hq hp (before_of_above (List.suffix_cons 0 q) ?_)
    exact (List.cons_ne_self 0 q).symm

/-- Where one candidate comes before another, the node that it starts with starts no later. -/
theorem start_le {p q u v : Position} {node first second : Node} (hpq : p = q ∨ p = 0 :: q)
    (huv : u = v ∨ u = 0 :: v) (hp : root.nodeAt? p = some node)
    (hq : root.nodeAt? q = some first) (hv : root.nodeAt? v = some second)
    (hbefore : Before p u) : first.start ≤ second.start := by
  have hnode := start_le_of_firstChild hform hpq hp hq
  have hpv : p = v ∨ Before p v := by
    rcases huv with rfl | rfl
    · exact .inr hbefore
    · exact before_firstChild hbefore
  rcases hpv with rfl | hpv
  · obtain rfl := Option.some.inj (hp.symm.trans hv)
    exact hnode
  · have hlater := hform.start_le_of_before hp hv hpv
    omega

end

/-- **Source order.** On a tree that fits its source, with the left sides of assignments in front
of what is assigned, the references that a walk answers start one behind the other: each on a
later line than those before it, or on the same one at no earlier column. -/
theorem references_in_source_order {filter : Filter} {limit : Nat} {refs : List Reference}
    (hform : root.WellFormed source) (hleft : root.LeftFirst)
    (h : (Extraction.ofSteps (root.walk source filter limit)).result = .ok refs) :
    refs.Pairwise fun earlier later => earlier.span.line < later.span.line ∨
      earlier.span.line = later.span.line ∧ earlier.span.column ≤ later.span.column := by
  obtain ⟨-, rfl⟩ := walk_candidates h
  apply List.Pairwise.filter
  refine List.Pairwise.filterMap _ ?_ (positions_pairwise root)
  intro p u hbefore earlier hearlier later hlater
  obtain ⟨q, first, hpq, hq, hfirst⟩ := candidateAt_start hleft hearlier
  obtain ⟨v, second, huv, hv, hsecond⟩ := candidateAt_start hleft hlater
  obtain ⟨node, hp, -⟩ := candidateAt_cases hearlier
  have hle := start_le hform hpq huv hp hq hv hbefore
  exact hfirst.place_le hsecond (hform.nodeAt hq) (hform.nodeAt hv) hle

def attachedText : Source := .ofString "q.each(1, 2) \x7b f.b = `x#\x7by\x7d` \x7d"

/-- `attachedText` as a tree: a call with a receiver, arguments and a block, and in the block a
setter of a literal with an interpolation. -/
def attachedTree : Node :=
  branch "program" 0 30 []
    [branch "call" 0 30 []
      [leaf "identifier" 0 1 ["receiver"], token "." 1 2, leaf "identifier" 2 6 ["method"],
       branch "argument_list" 6 12 ["arguments"]
        [token "(" 6 7, leaf "integer" 7 8 [], token "," 8 9, leaf "integer" 10 11 [],
         token ")" 11 12],
       branch "block" 13 30 ["block"]
        [token "\x7b" 13 14,
         branch "assignment" 15 28 []
          [branch "call" 15 18 ["left"]
            [leaf "identifier" 15 16 ["receiver"], token "." 16 17,
             leaf "identifier" 17 18 ["method"]],
           token "=" 19 20,
           branch "subshell" 21 28 ["right"]
            [token "`" 21 22, leaf "string_content" 22 23 [],
             branch "interpolation" 23 27 []
              [token "#\x7b" 23 25, leaf "identifier" 25 26 [], token "\x7d" 26 27],
             token "`" 27 28]],
         token "\x7d" 29 30]]]

def attachedReferences : List Reference :=
  [⟨.call, "each", some "q", some ["1", "2"], ⟨1, 0, 1, 12⟩, "q.each(1, 2)"⟩,
   ⟨.call, "b=", some "f", some ["`x#\x7by\x7d`"], ⟨1, 15, 1, 28⟩, "f.b = `x#\x7by\x7d`"⟩,
   ⟨.inlineExecution, commandName, none, some ["y"], ⟨1, 21, 1, 28⟩, "`x#\x7by\x7d`"⟩,
   ⟨.call, "y", none, none, ⟨1, 25, 1, 26⟩, "y"⟩]

set_option maxRecDepth 8000 in
theorem attachedTree_walk :
    (Extraction.ofSteps (attachedTree.walk attachedText .passThrough 9)).result =
      .ok attachedReferences := by
  rfl

set_option maxRecDepth 8000 in
theorem attachedTree_wellFormed : attachedTree.WellFormed attachedText := by
  decide

/-- The setter starts with its assignment, in front of the literal that is assigned. -/
theorem attached_in_source_order :
    attachedTree.WellFormed attachedText ∧ attachedTree.LeftFirst ∧
    (Extraction.ofSteps (attachedTree.walk attachedText .passThrough 9)).result =
      .ok attachedReferences ∧
    attachedReferences.Pairwise fun earlier later => earlier.span.line < later.span.line ∨
      earlier.span.line = later.span.line ∧ earlier.span.column ≤ later.span.column := by
  have hleft : attachedTree.LeftFirst := by decide
  exact ⟨attachedTree_wellFormed, hleft, attachedTree_walk,
    references_in_source_order attachedTree_wellFormed hleft attachedTree_walk⟩

end CallSift.Node
