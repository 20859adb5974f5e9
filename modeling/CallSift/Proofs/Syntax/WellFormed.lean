import CallSift.Proofs.Source.Boundary
import CallSift.Proofs.Syntax.Position

/-!
# Trees over a source

What a parser promises of the offsets of a tree: every node covers a stretch of
the source that starts and stops between two characters, and its children lie in
this stretch one behind the other.

* `WellFormed.nodeAt`: what stands at a position of a well-formed tree is one itself.
* `WellFormed.start_le_of_before`: nodes in pre-order start one behind the other.
-/
namespace CallSift.Node

/-- The stretch of a node, and where its children lie in it. -/
structure Fits (source : Source) (node : Node) : Prop where
  start : source.Boundary node.start
  stop : source.Boundary node.stop
  ordered : node.start ≤ node.stop
  within : ∀ child ∈ node.children, node.start ≤ child.start ∧ child.stop ≤ node.stop
  inOrder : node.children.Pairwise fun a b => a.stop ≤ b.start

instance (source : Source) (node : Node) : Decidable (node.Fits source) :=
  decidable_of_iff
    (source.Boundary node.start ∧ source.Boundary node.stop ∧ node.start ≤ node.stop ∧
      (∀ child ∈ node.children, node.start ≤ child.start ∧ child.stop ≤ node.stop) ∧
      node.children.Pairwise fun a b => a.stop ≤ b.start)
    ⟨fun ⟨h1, h2, h3, h4, h5⟩ => ⟨h1, h2, h3, h4, h5⟩,
      fun h => ⟨h.start, h.stop, h.ordered, h.within, h.inOrder⟩⟩

/-- Every node of the tree fits the source. -/
def WellFormed (source : Source) (root : Node) : Prop := ∀ node ∈ root.preorder, node.Fits source

instance (source : Source) (root : Node) : Decidable (root.WellFormed source) :=
  inferInstanceAs (Decidable (∀ node ∈ root.preorder, node.Fits source))

theorem mem_preorderAll {node : Node} (nodes : List Node) :
    node ∈ preorderAll nodes ↔ ∃ top ∈ nodes, node ∈ top.preorder := by
  induction nodes with
  | nil => simp [preorderAll]
  | cons top rest ih =>
    rw [preorderAll, List.mem_append, ih]
    simp

theorem mem_preorder_self (node : Node) : node ∈ node.preorder := by
  cases node; simp [preorder]

/-- What stands below a child stands below the node. -/
theorem mem_preorder_child {root child below : Node} (hchild : child ∈ root.children)
    (hbelow : below ∈ child.preorder) : below ∈ root.preorder := by
  cases root with
  | mk info children =>
    rw [preorder]
    exact List.mem_cons_of_mem _ ((mem_preorderAll children).mpr ⟨child, hchild, hbelow⟩)

namespace WellFormed

variable {source : Source} {root node : Node}

theorem fits (h : root.WellFormed source) : root.Fits source := h root root.mem_preorder_self

theorem child (h : root.WellFormed source) (hc : node ∈ root.children) :
    node.WellFormed source :=
  fun below hbelow => h below (mem_preorder_child hc hbelow)

theorem nodeAt (h : root.WellFormed source) : ∀ {p : Position} {node : Node},
    root.nodeAt? p = some node → node.WellFormed source
  | [], _, hp => by cases hp; exact h
  | i :: up, node, hp => by
    obtain ⟨parent, hup, hi⟩ := Option.bind_eq_some_iff.mp hp
    exact (nodeAt h hup).child (List.mem_of_getElem? hi)

theorem parentAt (h : root.WellFormed source) : ∀ {p : Position} {parent : Node},
    root.parentAt? p = some parent → parent.WellFormed source
  | _ :: _, _, hp => h.nodeAt hp

/-- What stands below a node lies in the stretch of the node. -/
theorem within (h : root.WellFormed source) : ∀ {p : Position} {node : Node},
    root.nodeAt? p = some node → root.start ≤ node.start ∧ node.stop ≤ root.stop
  | [], _, hp => by
    cases hp
    exact ⟨Nat.le_refl _, Nat.le_refl _⟩
  | i :: up, node, hp => by
    obtain ⟨parent, hup, hi⟩ := Option.bind_eq_some_iff.mp hp
    have habove := within h hup
    have hchild := (h.nodeAt hup).fits.within node (List.mem_of_getElem? hi)
    omega

/-- A node starts no later than what comes behind it in pre-order: this lies inside of it, or in a
later child of a node that both lie in. -/
theorem start_le_of_before (h : root.WellFormed source) {p q : Position} {first second : Node}
    (hp : root.nodeAt? p = some first) (hq : root.nodeAt? q = some second)
    (hbefore : Position.Before p q) : first.start ≤ second.start := by
  rcases Position.before_cases hbefore with ⟨down, rfl⟩ | ⟨up, i, j, hij, ⟨a, rfl⟩, ⟨b, rfl⟩⟩
  · rw [nodeAt?_append, hp] at hq
    exact ((h.nodeAt hp).within hq).1
  · rw [nodeAt?_append] at hp hq
    obtain ⟨child, hchild, hfirst⟩ := Option.bind_eq_some_iff.mp hp
    obtain ⟨other, hother, hsecond⟩ := Option.bind_eq_some_iff.mp hq
    have hinChild := (h.nodeAt hchild).within hfirst
    have hinOther := (h.nodeAt hother).within hsecond
    have hordered := ((h.nodeAt hchild).nodeAt hfirst).fits.ordered
    obtain ⟨parent, hup, hi⟩ := Option.bind_eq_some_iff.mp hchild
    obtain ⟨same, hsame, hj⟩ := Option.bind_eq_some_iff.mp hother
    obtain rfl := Option.some.inj (hup.symm.trans hsame)
    obtain ⟨hlength, hi⟩ := List.getElem?_eq_some_iff.mp hi
    obtain ⟨hotherLength, hj⟩ := List.getElem?_eq_some_iff.mp hj
    have hsiblings := List.pairwise_iff_getElem.mp (h.nodeAt hup).fits.inOrder i j hlength
      hotherLength hij
    rw [hi, hj] at hsiblings
    omega

end WellFormed
end CallSift.Node
