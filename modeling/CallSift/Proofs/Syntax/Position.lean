import CallSift.Syntax.Node

/-!
# Positions in a tree

A position names a node by its place, not by its content, since equal nodes may
stand in many places. It lists the node's number among its siblings, then its
parent's number, and so on up to the root, whose position is empty; the
positions above a node are thus the suffixes of its own.

* `Before` is pre-order, decided by the two positions alone; `before_cases` says how two
  positions lie.
* `positions` lists the positions of a tree: all of them (`mem_positions`), each
  once and in pre-order (`positions_pairwise`), and the nodes that stand there
  are `preorder` (`positions_nodes`).
* `mem_left`: in that list, what stands left of a position is what comes before it.
-/
namespace CallSift

/-- The numbers of the children that lead from a node up to the root. -/
abbrev Position := List Nat

/-! ## Pre-order -/

namespace Position

/-- `v` comes before `u` in pre-order: it lies above `u`, or where the ways to
the two part, `v` takes the earlier child. -/
def Before (v u : Position) : Prop := v.reverse < u.reverse

instance : DecidableRel Before := fun v u => inferInstanceAs (Decidable (v.reverse < u.reverse))

theorem before_irrefl (p : Position) : ¬ Before p p := List.lt_irrefl _

theorem before_asymm {v u : Position} (h : Before v u) : ¬ Before u v := List.lt_asymm h

theorem before_of_above {p w : Position} (h : p <:+ w) (hne : p ≠ w) : Before p w := by
  obtain ⟨a, rfl⟩ := h
  have ha : a.reverse ≠ [] := by
    intro h0; apply hne; rw [List.reverse_eq_nil_iff.mp h0, List.nil_append]
  obtain ⟨i, b, hb⟩ := List.exists_cons_of_ne_nil ha
  have hlt : p.reverse ++ [] < p.reverse ++ i :: b := List.append_left_lt (List.nil_lt_cons i b)
  unfold Before
  rw [List.append_nil] at hlt
  rwa [List.reverse_append, hb]

theorem before_of_parted {up v w : Position} {i j : Nat} (hij : i < j) (hv : (i :: up) <:+ v)
    (hw : (j :: up) <:+ w) : Before v w := by
  obtain ⟨a, rfl⟩ := hv
  obtain ⟨b, rfl⟩ := hw
  unfold Before
  simp only [List.reverse_append, List.reverse_cons, List.append_assoc, List.singleton_append]
  exact List.append_left_lt (List.cons_lt_cons_iff.mpr (Or.inl hij))

/-- A smaller list is the other's beginning, or has a smaller number where the two part. -/
theorem parted_of_lt : ∀ {way other : List Nat}, way < other → way <+: other ∨
    ∃ common i j, i < j ∧ common ++ [i] <+: way ∧ common ++ [j] <+: other
  | [], _, _ => .inl List.nil_prefix
  | _ :: _, [], h => absurd h (List.not_lt_nil _)
  | first :: way, second :: other, h => by
    rcases List.cons_lt_cons_iff.mp h with hless | ⟨rfl, hrest⟩
    · exact .inr ⟨[], first, second, hless, by simp, by simp⟩
    rcases parted_of_lt hrest with hprefix | ⟨common, i, j, hij, hway, hother⟩
    · exact .inl ((List.prefix_cons_inj first).mpr hprefix)
    · exact .inr ⟨first :: common, i, j, hij, (List.prefix_cons_inj first).mpr hway,
        (List.prefix_cons_inj first).mpr hother⟩

/-- What comes before a position lies above it, or parts from it towards an earlier child. -/
theorem before_cases {v u : Position} (h : Before v u) : v <:+ u ∨
    ∃ up i j, i < j ∧ (i :: up) <:+ v ∧ (j :: up) <:+ u := by
  rcases parted_of_lt h with hprefix | ⟨common, i, j, hij, hv, hu⟩
  · exact .inl (List.reverse_prefix.mp hprefix)
  · refine .inr ⟨common.reverse, i, j, hij, List.reverse_prefix.mp ?_, List.reverse_prefix.mp ?_⟩
    · simpa using hv
    · simpa using hu

/-- Nothing comes between a node and its first child. -/
theorem before_firstChild {v up : Position} (h : Before v (0 :: up)) : v = up ∨ Before v up := by
  rcases before_cases h with habove | ⟨common, i, j, hij, hv, hup⟩
  · rcases List.suffix_cons_iff.mp habove with rfl | habove
    · exact absurd h (before_irrefl _)
    · exact Decidable.or_iff_not_imp_left.mpr (before_of_above habove)
  · rcases List.suffix_cons_iff.mp hup with hsame | hup
    · obtain ⟨rfl, -⟩ := List.cons.inj hsame
      exact absurd hij (Nat.not_lt_zero i)
    · exact .inr (before_of_parted hij hv hup)

end Position

open Position

namespace Node

/-- The node at a position. -/
def nodeAt? (root : Node) : Position → Option Node
  | [] => some root
  | i :: up => (nodeAt? root up).bind fun node => node.children[i]?

/-- The parent of the node at a position. -/
def parentAt? (root : Node) : Position → Option Node
  | [] => none
  | _ :: up => root.nodeAt? up

mutual
/-- The positions of a tree whose root stands at `p`, in pre-order. -/
def positionsFrom (p : Position) : Node → List Position
  | mk _ children => p :: positionsAll p 0 children
/-- The positions of trees that stand side by side, the first as child `i` of the node at `up`. -/
def positionsAll (up : Position) (i : Nat) : List Node → List Position
  | [] => []
  | node :: rest => positionsFrom (i :: up) node ++ positionsAll up (i + 1) rest
end

def positions (root : Node) : List Position := positionsFrom [] root

theorem nodeAt?_append (root : Node) (p : Position) :
    ∀ q : Position, root.nodeAt? (q ++ p) = (root.nodeAt? p).bind fun node => node.nodeAt? q
  | [] => by simp [nodeAt?]
  | i :: q => by
    simp only [List.cons_append, nodeAt?, nodeAt?_append root p q]
    cases root.nodeAt? p <;> rfl

/-- A step of a walk over children: the first of those left, and those left after it. -/
theorem nodeAt?_child {root parent node : Node} {up : Position} {i : Nat} {rest : List Node}
    (hp : root.nodeAt? up = some parent) (hc : parent.children.drop i = node :: rest) :
    root.nodeAt? (i :: up) = some node ∧ parent.children.drop (i + 1) = rest := by
  have hi : parent.children[i]? = some node := by
    have := congrArg (·[0]?) hc
    simpa using this
  refine ⟨by simp [nodeAt?, hp, hi], ?_⟩
  rw [← List.drop_drop, hc]; rfl

/-! ## The list of positions -/

mutual
theorem above_of_mem (p : Position) : ∀ (node : Node) {w : Position},
    w ∈ positionsFrom p node → p <:+ w
  | mk _ children, w, h => by
    simp only [positionsFrom, List.mem_cons] at h
    rcases h with rfl | h
    · exact List.suffix_refl _
    · obtain ⟨j, -, hj⟩ := above_of_mem_all p 0 children h
      exact (List.suffix_cons j p).trans hj
theorem above_of_mem_all (up : Position) (i : Nat) : ∀ (nodes : List Node) {w : Position},
    w ∈ positionsAll up i nodes → ∃ j, i ≤ j ∧ (j :: up) <:+ w
  | [], w, h => by simp [positionsAll] at h
  | node :: rest, w, h => by
    simp only [positionsAll, List.mem_append] at h
    rcases h with h | h
    · exact ⟨i, Nat.le_refl i, above_of_mem (i :: up) node h⟩
    · obtain ⟨j, hij, hj⟩ := above_of_mem_all up (i + 1) rest h
      exact ⟨j, by omega, hj⟩
end

mutual
theorem positionsFrom_pairwise (p : Position) : ∀ node : Node,
    (positionsFrom p node).Pairwise Before
  | mk _ children => by
    simp only [positionsFrom, List.pairwise_cons]
    refine ⟨?_, positionsAll_pairwise p 0 children⟩
    intro w hw
    obtain ⟨j, -, hj⟩ := above_of_mem_all p 0 children hw
    refine before_of_above ((List.suffix_cons j p).trans hj) ?_
    rintro rfl
    have := hj.length_le
    simp only [List.length_cons] at this; omega
theorem positionsAll_pairwise (up : Position) (i : Nat) : ∀ nodes : List Node,
    (positionsAll up i nodes).Pairwise Before
  | [] => by simp [positionsAll]
  | node :: rest => by
    simp only [positionsAll, List.pairwise_append]
    refine ⟨positionsFrom_pairwise (i :: up) node, positionsAll_pairwise up (i + 1) rest, ?_⟩
    intro v hv w hw
    obtain ⟨j, hij, hj⟩ := above_of_mem_all up (i + 1) rest hw
    exact before_of_parted hij (above_of_mem (i :: up) node hv) hj
end

/-- The positions of a tree stand in pre-order. -/
theorem positions_pairwise (root : Node) : root.positions.Pairwise Before :=
  positionsFrom_pairwise [] root

mutual
theorem mem_positionsFrom (p : Position) : ∀ (node : Node) (w : Position),
    w ∈ positionsFrom p node ↔ ∃ q, w = q ++ p ∧ (node.nodeAt? q).isSome
  | mk info children, w => by
    simp only [positionsFrom, List.mem_cons, mem_positionsAll p 0 children]
    constructor
    · rintro (rfl | ⟨j, q, node, hj, rfl, hq⟩)
      · exact ⟨[], rfl, rfl⟩
      · refine ⟨q ++ [j], by simp, ?_⟩
        rw [nodeAt?_append]
        simpa [nodeAt?, Node.children, hj] using hq
    · rintro ⟨q, rfl, hq⟩
      -- the last number of `q` is the child of this node that the way leads through
      rcases List.eq_nil_or_concat q with rfl | ⟨q, j, rfl⟩
      · exact Or.inl rfl
      · rw [List.concat_eq_append, nodeAt?_append] at hq
        simp only [nodeAt?, Option.bind_some, Node.children] at hq
        cases hj : children[j]? with
        | none => simp [hj] at hq
        | some node => exact Or.inr ⟨j, q, node, hj, by simp, by simpa [hj] using hq⟩
theorem mem_positionsAll (up : Position) (i : Nat) : ∀ (nodes : List Node) (w : Position),
    w ∈ positionsAll up i nodes ↔
      ∃ j q node, nodes[j]? = some node ∧ w = q ++ (i + j) :: up ∧ (node.nodeAt? q).isSome
  | [], w => by simp [positionsAll]
  | node :: rest, w => by
    simp only [positionsAll, List.mem_append, mem_positionsFrom (i :: up) node,
      mem_positionsAll up (i + 1) rest]
    constructor
    · rintro (⟨q, rfl, hq⟩ | ⟨j, q, other, hj, rfl, hq⟩)
      · exact ⟨0, q, node, rfl, rfl, hq⟩
      · refine ⟨j + 1, q, other, by simpa using hj, ?_, hq⟩
        rw [Nat.add_right_comm i 1 j, Nat.add_assoc]
    · rintro ⟨j, q, other, hj, rfl, hq⟩
      cases j with
      | zero =>
        simp only [List.getElem?_cons_zero, Option.some.injEq] at hj
        subst hj
        exact Or.inl ⟨q, rfl, hq⟩
      | succ j =>
        refine Or.inr ⟨j, q, other, by simpa using hj, ?_, hq⟩
        rw [Nat.add_right_comm i 1 j, Nat.add_assoc]
end

/-- The positions of a tree are those where a node stands. -/
theorem mem_positions (root : Node) (p : Position) :
    p ∈ root.positions ↔ (root.nodeAt? p).isSome := by
  unfold positions
  rw [mem_positionsFrom]
  constructor
  · rintro ⟨q, rfl, hq⟩; simpa using hq
  · intro h; exact ⟨p, by simp, h⟩

mutual
theorem positionsFrom_nodes {root : Node} {p : Position} : ∀ {node : Node},
    root.nodeAt? p = some node → (positionsFrom p node).filterMap root.nodeAt? = preorder node
  | mk info children, h => by
    simp only [positionsFrom, preorder, List.filterMap_cons, h]
    rw [positionsAll_nodes h (i := 0) (by rfl)]
theorem positionsAll_nodes {root parent : Node} {up : Position} {i : Nat} : ∀ {nodes : List Node},
    root.nodeAt? up = some parent → parent.children.drop i = nodes →
      (positionsAll up i nodes).filterMap root.nodeAt? = preorderAll nodes
  | [], _, _ => rfl
  | node :: rest, hp, hc => by
    obtain ⟨hnode, hrest⟩ := nodeAt?_child hp hc
    simp only [positionsAll, preorderAll, List.filterMap_append]
    rw [positionsFrom_nodes hnode, positionsAll_nodes hp hrest]
end

/-- The nodes at the positions of a tree are its nodes in pre-order. -/
theorem positions_nodes (root : Node) : root.positions.filterMap root.nodeAt? = root.preorder :=
  positionsFrom_nodes rfl

/-- Each node in pre-order is the node at one position. -/
theorem positions_map (root : Node) :
    root.positions.map root.nodeAt? = root.preorder.map some := by
  have hall : ∀ places : List Position, (∀ p ∈ places, (root.nodeAt? p).isSome) →
      places.map root.nodeAt? = (places.filterMap root.nodeAt?).map some := by
    intro places hsome
    induction places with
    | nil => rfl
    | cons p rest ih =>
      obtain ⟨hp, hrest⟩ := List.forall_mem_cons.mp hsome
      obtain ⟨node, hnode⟩ := Option.isSome_iff_exists.mp hp
      simp [hnode, ih hrest]
  rw [hall _ fun p hp => (mem_positions root p).mp hp, positions_nodes]

theorem mem_preorder {root node : Node} :
    node ∈ root.preorder ↔ ∃ p, root.nodeAt? p = some node := by
  rw [← positions_nodes, List.mem_filterMap]
  constructor
  · intro h
    obtain ⟨p, -, hp⟩ := h
    exact ⟨p, hp⟩
  · intro h
    obtain ⟨p, hp⟩ := h
    exact ⟨p, (mem_positions root p).mpr (by simp [hp]), hp⟩

/-- What stands at a position is a child of what stands above it. -/
theorem parentAt?_spec {root node above : Node} {p : Position} (hp : root.nodeAt? p = some node)
    (habove : root.parentAt? p = some above) :
    above ∈ root.preorder ∧ node ∈ above.children := by
  cases p with
  | nil => cases habove
  | cons i up =>
    obtain ⟨parent, hup, hi⟩ := Option.bind_eq_some_iff.mp hp
    obtain rfl := Option.some.inj (hup.symm.trans habove)
    exact ⟨mem_preorder.mpr ⟨up, hup⟩, List.mem_of_getElem? hi⟩

/-- What stands left of a position in the list is what comes before it in pre-order. -/
theorem mem_left {root : Node} {seen rest : List Position} {u : Position}
    (h : root.positions = seen ++ u :: rest) (v : Position) :
    v ∈ seen ↔ v ∈ root.positions ∧ Before v u := by
  have hp := root.positions_pairwise
  rw [h] at hp ⊢
  simp only [List.pairwise_append, List.pairwise_cons, List.mem_cons] at hp
  obtain ⟨-, ⟨hright, -⟩, hleft⟩ := hp
  constructor
  · intro hv
    exact ⟨List.mem_append_left _ hv, hleft v hv u (Or.inl rfl)⟩
  · rintro ⟨hv, hb⟩
    simp only [List.mem_append, List.mem_cons] at hv
    rcases hv with hv | rfl | hv
    · exact hv
    · exact absurd hb (before_irrefl _)
    · exact absurd hb (before_asymm (hright v hv))

end Node
end CallSift
