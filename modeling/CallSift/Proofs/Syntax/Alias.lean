import CallSift.Proofs.Syntax.WellFormed
import CallSift.Syntax.Alias

/-!
# The tree that a traversal meets

A traversal meets the nodes of a tree where they stand, extra nodes below an alias
under its kind. Offsets, flags of missing tokens and flags of what lies below are
those of the tree itself; only an error that is met as another kind is no error.

* `metAt?`: the kind that a node is met as, by its position.
* `nodeAt?_asMet`: what is met at a position is the node there, under that kind.
* `positions_asMet`: and it is met in the same order.
* `metAt?_cons`: what is met under another kind, and as which; so its kind is that of an alias
  (`mem_aliasedKinds_of_metAt?`), and its parent is met as the same (`metAt?_eq_parent`).
* `WellFormed.asMet`: so what is promised of the offsets of a tree holds of the tree as it is met.
-/
namespace CallSift.Node

/-- The kind that the node at a position is met as, if not as its own. -/
def metAt? (root : Node) : Position → Option String
  | [] => none
  | i :: up => (root.nodeAt? up).bind fun parent =>
      parent.children[i]?.bind fun child => metKind (root.metAt? up) parent child

@[simp] theorem info_metFrom (met : Option String) (node : Node) :
    (metFrom met node).info = metAs node.info met := by
  cases node; rfl

@[simp] theorem children_metFrom (met : Option String) (node : Node) :
    (metFrom met node).children = metAll met node node.children := by
  cases node; rfl

theorem metAll_eq_map (met : Option String) (parent : Node) (nodes : List Node) :
    metAll met parent nodes =
      nodes.map fun child => metFrom (metKind met parent child) child := by
  induction nodes with
  | nil => rfl
  | cons node rest ih => rw [metAll, ih, List.map_cons]

/-- What a traversal meets at a position is the node there, as the kind it is met as. -/
theorem nodeAt?_asMet (root : Node) : ∀ p : Position,
    root.asMet.nodeAt? p = (root.nodeAt? p).map (metFrom (root.metAt? p))
  | [] => rfl
  | i :: up => by
    simp only [nodeAt?, nodeAt?_asMet root up]
    cases hup : root.nodeAt? up with
    | none => rfl
    | some parent =>
      simp only [Option.map_some, Option.bind_some, children_metFrom, metAll_eq_map,
        List.getElem?_map]
      cases hchild : parent.children[i]? with
      | none => rfl
      | some child => simp [metAt?, hup, hchild]

mutual
theorem positionsFrom_metFrom (p : Position) (met : Option String) : ∀ node : Node,
    positionsFrom p (metFrom met node) = positionsFrom p node
  | mk info children => by
    rw [metFrom, positionsFrom, positionsFrom, positionsAll_metAll]
theorem positionsAll_metAll (up : Position) (met : Option String) (parent : Node) (i : Nat) :
    ∀ nodes : List Node, positionsAll up i (metAll met parent nodes) = positionsAll up i nodes
  | [] => rfl
  | node :: rest => by
    rw [metAll, positionsAll, positionsAll, positionsFrom_metFrom, positionsAll_metAll]
end

/-- A traversal meets every node, in the order of the tree. -/
theorem positions_asMet (root : Node) : root.asMet.positions = root.positions :=
  positionsFrom_metFrom [] none root

/-! ## What is read of a node -/

theorem start_metFrom (met : Option String) (node : Node) :
    (metFrom met node).start = node.start := by
  unfold start
  rw [info_metFrom]
  cases met <;> rfl

theorem stop_metFrom (met : Option String) (node : Node) : (metFrom met node).stop = node.stop := by
  unfold stop
  rw [info_metFrom]
  cases met <;> rfl

theorem kind_metFrom (met : Option String) (node : Node) :
    (metFrom met node).kind = met.getD node.kind := by
  unfold kind
  rw [info_metFrom]
  cases met <;> rfl

theorem ownKind_metFrom (met : Option String) (node : Node) :
    (metFrom met node).ownKind = node.ownKind := by
  unfold ownKind
  rw [info_metFrom]
  cases met <;> rfl

theorem fields_metFrom (met : Option String) (node : Node) :
    (metFrom met node).info.fields = node.info.fields := by
  rw [info_metFrom]
  cases met <;> rfl

theorem isField_metFrom (met : Option String) (node : Node) (field : String) :
    (metFrom met node).isField field = node.isField field := by
  unfold isField
  rw [fields_metFrom]

/-- Under whatever kind a node is met, it has a child under the fields under which it has one. -/
theorem child?_metFrom_eq_none {met : Option String} {node : Node} {field : String} :
    (metFrom met node).child? field = none ↔ node.child? field = none := by
  simp [child?, metAll_eq_map, isField_metFrom]

theorem Fits.metFrom {source : Source} {node : Node} (h : node.Fits source)
    (met : Option String) : (metFrom met node).Fits source where
  start := start_metFrom met node ▸ h.start
  stop := stop_metFrom met node ▸ h.stop
  ordered := by
    rw [start_metFrom, stop_metFrom]
    exact h.ordered
  within := by
    simpa [metAll_eq_map, start_metFrom, stop_metFrom] using h.within
  inOrder := by
    simpa [metAll_eq_map, List.pairwise_map, start_metFrom, stop_metFrom] using h.inOrder

/-- The offsets of a tree do not depend on the kinds under which its nodes are met. -/
theorem WellFormed.asMet {source : Source} {root : Node} (h : root.WellFormed source) :
    root.asMet.WellFormed source := by
  intro met hmet
  obtain ⟨p, hp⟩ := mem_preorder.mp hmet
  rw [nodeAt?_asMet] at hp
  obtain ⟨node, hnode, rfl⟩ := Option.map_eq_some_iff.mp hp
  exact (h node (mem_preorder.mpr ⟨p, hnode⟩)).metFrom _

/-! ## Other kinds -/

theorem mem_aliasedKinds_of_isAliased {node : Node} (h : node.isAliased = true) :
    node.ownKind ∈ aliasedKinds := by
  simp only [isAliased, Bool.or_eq_true, Bool.and_eq_true, beq_iff_eq, List.contains_iff_mem] at h
  simp only [aliasedKinds, List.cons_append, List.mem_cons, List.mem_append]
  rcases h with (halias | ⟨hcall, -⟩) | ⟨⟨⟨hpattern, -⟩, -⟩, -⟩
  · exact .inr (.inl halias)
  · exact .inl hcall
  · exact .inr (.inr hpattern)

/-- What is met under another kind is an extra child. Its kind is the one that its parent is met
as, or else the one that an alias gives its parent. -/
theorem metAt?_cons {root : Node} {i : Nat} {up : Position} {kind : String}
    (h : root.metAt? (i :: up) = some kind) : ∃ parent child, root.nodeAt? up = some parent ∧
      parent.children[i]? = some child ∧ child.isExtra = true ∧
      (root.metAt? up = some kind ∨
        root.metAt? up = none ∧ parent.isAliased = true ∧ kind = parent.ownKind) := by
  simp only [metAt?, Option.bind_eq_some_iff] at h
  obtain ⟨parent, hup, child, hi, h⟩ := h
  unfold metKind at h
  split at h
  · next hholds =>
    refine ⟨parent, child, hup, hi, (Bool.and_eq_true_iff.mp hholds).1, ?_⟩
    rcases Option.or_eq_some_iff.mp h with habove | ⟨hnone, h⟩
    · exact .inl habove
    · split at h
      · next haliased => exact .inr ⟨hnone, haliased, (Option.some.inj h).symm⟩
      · cases h
  · cases h

/-- What is met under another kind has that of an alias. -/
theorem mem_aliasedKinds_of_metAt? {root : Node} : ∀ {p : Position} {kind : String},
    root.metAt? p = some kind → kind ∈ aliasedKinds
  | [], _, h => by cases h
  | i :: up, kind, h => by
    obtain ⟨parent, child, -, -, -, habove | ⟨-, haliased, rfl⟩⟩ := metAt?_cons h
    · exact mem_aliasedKinds_of_metAt? habove
    · exact mem_aliasedKinds_of_isAliased haliased

/-- What is met under another kind is met as its parent is. -/
theorem metAt?_eq_parent {root parent : Node} {up : Position} {i : Nat} {kind : String}
    (hup : root.nodeAt? up = some parent) (h : root.metAt? (i :: up) = some kind) :
    kind = (root.metAt? up).getD parent.ownKind := by
  obtain ⟨above, child, habove, -, -, hkind⟩ := metAt?_cons h
  obtain rfl := Option.some.inj (hup.symm.trans habove)
  rcases hkind with hsome | ⟨hnone, -, rfl⟩
  · rw [hsome, Option.getD_some]
  · rw [hnone, Option.getD_none]

/-- A node that is met under another kind is one that the grammar allows everywhere. -/
theorem isExtra_of_metAt? {root node : Node} {p : Position} {kind : String}
    (hp : root.nodeAt? p = some node) (h : root.metAt? p = some kind) : node.isExtra = true := by
  cases p with
  | nil => cases h
  | cons i up =>
    obtain ⟨parent, child, hup, hi, hextra, -⟩ := metAt?_cons h
    rw [nodeAt?, hup, Option.bind_some, hi] at hp
    exact Option.some.inj hp ▸ hextra

/-! ## Faults -/

/-- Under its own kind a node is as faulty as it is; under another one only as a missing token. -/
theorem isFaulty_metAs (info : NodeInfo) (met : Option String) :
    (metAs info met).isFaulty = true ↔
      info.isMissing = true ∨ info.isError = true ∧ met = none := by
  cases met <;> simp [metAs, NodeInfo.isFaulty, or_comm]

theorem hasError_metAs (info : NodeInfo) (met : Option String) :
    (metAs info met).hasError = info.hasError := by
  cases met <;> rfl

end CallSift.Node
