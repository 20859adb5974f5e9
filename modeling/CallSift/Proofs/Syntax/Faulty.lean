import CallSift.Proofs.Syntax.Alias
import CallSift.Proofs.Syntax.WellFormed
import CallSift.Syntax.Faulty

/-!
# The first fault of a tree

The search for the first fault skips every subtree without the flag. Where the flags
are right it finds what a scan of all nodes in pre-order finds. It looks at the nodes
as a traversal meets them, though, so an error below an alias is no fault to it.

* `firstFaulty?_eq_scan?`: the search against the scan.
* `FaultAt`: where a traversal meets a fault.
* `firstFaulty?_eq_none` and `firstFaulty?_eq_some`: what the search answers.
-/
namespace CallSift.Node

open Position

/-! ## Flags -/

/-- A node with a fault somewhere below it has the flag. -/
def FlagsCover (root : Node) : Prop :=
  ∀ node ∈ root.preorder, ∀ child ∈ node.children, ∀ below ∈ child.preorder,
    below.info.isFaulty = true → node.info.hasError = true

/-- Exactly the nodes that are faults, or have one below them, have the flag. -/
def FlagsExact (root : Node) : Prop :=
  ∀ node ∈ root.preorder,
    node.info.hasError = true ↔ ∃ below ∈ node.preorder, below.info.isFaulty = true

instance (root : Node) : Decidable root.FlagsExact :=
  inferInstanceAs (Decidable (∀ node ∈ root.preorder,
    node.info.hasError = true ↔ ∃ below ∈ node.preorder, below.info.isFaulty = true))

theorem FlagsExact.cover {root : Node} (h : root.FlagsExact) : root.FlagsCover := by
  intro node hnode child hchild below hbelow hfaulty
  exact (h node hnode).mpr ⟨below, mem_preorder_child hchild hbelow, hfaulty⟩

/-- The flag of the root says whether there is a fault. -/
theorem FlagsExact.root {root : Node} (h : root.FlagsExact) : root.info.hasError = true ↔
    ∃ p node, root.nodeAt? p = some node ∧ node.info.isFaulty = true := by
  rw [h root root.mem_preorder_self]
  constructor
  · intro hbelow
    obtain ⟨node, hmem, hfaulty⟩ := hbelow
    obtain ⟨p, hp⟩ := mem_preorder.mp hmem
    exact ⟨p, node, hp, hfaulty⟩
  · intro hplace
    obtain ⟨p, node, hp, hfaulty⟩ := hplace
    exact ⟨node, mem_preorder.mpr ⟨p, hp⟩, hfaulty⟩

theorem FlagsCover.child {root child : Node} (h : root.FlagsCover)
    (hchild : child ∈ root.children) : child.FlagsCover :=
  fun node hnode => h node (mem_preorder_child hchild hnode)

/-! ## The scan -/

/-- The first faulty node of a list whose nodes are numbered from `index` on. -/
def scan? (index : Nat) : List Node → Option (Nat × Node)
  | [] => none
  | node :: rest => if node.info.isFaulty then some (index, node) else scan? (index + 1) rest

theorem scan?_append (index : Nat) (left right : List Node) :
    scan? index (left ++ right) = (scan? index left).or (scan? (index + left.length) right) := by
  induction left generalizing index with
  | nil => simp [scan?]
  | cons node rest ih =>
    by_cases hfaulty : node.info.isFaulty = true
    · simp [scan?, hfaulty]
    · simp [scan?, hfaulty, ih, Nat.add_assoc, Nat.add_comm 1]

theorem scan?_eq_none {index : Nat} {nodes : List Node} :
    scan? index nodes = none ↔ ∀ node ∈ nodes, ¬ node.info.isFaulty = true := by
  induction nodes generalizing index with
  | nil => simp [scan?]
  | cons node rest ih =>
    by_cases hfaulty : node.info.isFaulty = true
    · simp [scan?, hfaulty]
    · simp only [scan?, hfaulty, Bool.false_eq_true, if_false, ih, List.forall_mem_cons,
        not_false_eq_true, true_and]

theorem scan?_snd (index : Nat) (nodes : List Node) :
    (scan? index nodes).map Prod.snd = nodes.find? fun node => node.info.isFaulty := by
  induction nodes generalizing index with
  | nil => rfl
  | cons node rest ih =>
    by_cases hfaulty : node.info.isFaulty = true <;> simp [scan?, hfaulty, ih]

theorem scan?_eq_some {index i : Nat} {nodes : List Node} {found : Node}
    (h : scan? index nodes = some (i, found)) :
    ∃ seen rest, nodes = seen ++ found :: rest ∧ i = index + seen.length ∧
      found.info.isFaulty = true ∧ ∀ node ∈ seen, ¬ node.info.isFaulty = true := by
  induction nodes generalizing index with
  | nil => simp [scan?] at h
  | cons node rest ih =>
    by_cases hfaulty : node.info.isFaulty = true
    · simp only [scan?, hfaulty, if_true, Option.some.injEq, Prod.mk.injEq] at h
      obtain ⟨rfl, rfl⟩ := h
      exact ⟨[], rest, rfl, rfl, hfaulty, by simp⟩
    · simp only [scan?, hfaulty, Bool.false_eq_true, if_false] at h
      obtain ⟨seen, later, rfl, hi, hfound, hseen⟩ := ih h
      refine ⟨node :: seen, later, rfl, ?_, hfound, List.forall_mem_cons.mpr ⟨hfaulty, hseen⟩⟩
      simp only [List.length_cons]; omega

mutual
theorem size_eq : ∀ node : Node, node.size = node.preorder.length
  | mk info children => by rw [size, preorder, List.length_cons, sizeAll_eq children]
theorem sizeAll_eq : ∀ nodes : List Node, sizeAll nodes = (preorderAll nodes).length
  | [] => rfl
  | node :: rest => by rw [sizeAll, preorderAll, List.length_append, size_eq node, sizeAll_eq rest]
end

mutual
/-- The search finds what a scan of all nodes finds. -/
theorem firstFaulty?_eq_scan? : ∀ (node : Node) (index : Nat), node.FlagsCover →
    firstFaulty? index node = scan? index node.preorder
  | mk info children, index, h => by
    by_cases hfaulty : info.isFaulty = true
    · simp [firstFaulty?, preorder, scan?, Node.info, hfaulty]
    by_cases hflag : info.hasError = true
    · have hchildren : ∀ child ∈ children, child.FlagsCover := fun child hchild => h.child hchild
      simp [firstFaulty?, preorder, scan?, Node.info, hfaulty, hflag,
        firstFaultyOf?_eq_scan? children (index + 1) hchildren]
    · -- nothing below a node without the flag is a fault
      have hclean : scan? (index + 1) (preorderAll children) = none := by
        refine scan?_eq_none.mpr ?_
        intro below hbelow hfault
        obtain ⟨child, hchild, hmem⟩ := (mem_preorderAll children).mp hbelow
        exact hflag (h _ (mem_preorder_self _) child hchild below hmem hfault)
      simp [firstFaulty?, preorder, scan?, Node.info, hfaulty, hflag, hclean]
theorem firstFaultyOf?_eq_scan? : ∀ (nodes : List Node) (index : Nat),
    (∀ node ∈ nodes, node.FlagsCover) → firstFaultyOf? index nodes = scan? index (preorderAll nodes)
  | [], _, _ => rfl
  | node :: rest, index, h => by
    obtain ⟨hnode, hrest⟩ := List.forall_mem_cons.mp h
    rw [firstFaultyOf?, preorderAll, scan?_append, firstFaulty?_eq_scan? node index hnode,
      size_eq, firstFaultyOf?_eq_scan? rest _ hrest]
    cases scan? index node.preorder <;> rfl
end

mutual
/-- What the search finds is a node of the tree. -/
theorem mem_of_firstFaulty? {i : Nat} {found : Node} : ∀ {node : Node} {index : Nat},
    firstFaulty? index node = some (i, found) → found ∈ node.preorder
  | mk info children, index, h => by
    rw [firstFaulty?] at h
    split at h
    · obtain ⟨-, rfl⟩ := Prod.mk.inj (Option.some.inj h)
      exact mem_preorder_self _
    · split at h
      · exact List.mem_cons_of_mem _ (mem_of_firstFaultyOf? h)
      · cases h
theorem mem_of_firstFaultyOf? {i : Nat} {found : Node} : ∀ {nodes : List Node} {index : Nat},
    firstFaultyOf? index nodes = some (i, found) → found ∈ preorderAll nodes
  | node :: rest, index, h => by
    rw [firstFaultyOf?] at h
    split at h
    · next entry hentry =>
      obtain rfl := Option.some.inj h
      exact List.mem_append_left _ (mem_of_firstFaulty? hentry)
    · exact List.mem_append_right _ (mem_of_firstFaultyOf? h)
end

/-! ## Faults as a traversal meets them -/

/-- A traversal meets a fault at the position: a missing token, or an error under its own kind. -/
def FaultAt (root : Node) (p : Position) : Prop :=
  ∃ node, root.nodeAt? p = some node ∧
    (node.info.isMissing = true ∨ node.info.isError = true ∧ root.metAt? p = none)

theorem faultAt_iff {root : Node} {p : Position} :
    root.FaultAt p ↔ ∃ met, root.asMet.nodeAt? p = some met ∧ met.info.isFaulty = true := by
  rw [nodeAt?_asMet]
  constructor
  · intro h
    obtain ⟨node, hnode, hfault⟩ := h
    refine ⟨metFrom (root.metAt? p) node, by rw [hnode]; rfl, ?_⟩
    rwa [info_metFrom, isFaulty_metAs]
  · intro h
    obtain ⟨met, hmet, hfault⟩ := h
    obtain ⟨node, hnode, rfl⟩ := Option.map_eq_some_iff.mp hmet
    rw [info_metFrom, isFaulty_metAs] at hfault
    exact ⟨node, hnode, hfault⟩

/-- What is met as a fault is one. -/
theorem FaultAt.faulty {root : Node} {p : Position} (h : root.FaultAt p) :
    ∃ node, root.nodeAt? p = some node ∧ node.info.isFaulty = true := by
  obtain ⟨node, hnode, hfault⟩ := h
  refine ⟨node, hnode, ?_⟩
  rcases hfault with hmissing | ⟨herror, -⟩
  · simp [NodeInfo.isFaulty, hmissing]
  · simp [NodeInfo.isFaulty, herror]

/-- Where each error is met under its own kind, what is a fault is met as one. -/
theorem faultAt_of_unaliased {root : Node}
    (h : ∀ p node, root.nodeAt? p = some node → node.info.isError = true → root.metAt? p = none)
    (p : Position) :
    root.FaultAt p ↔ ∃ node, root.nodeAt? p = some node ∧ node.info.isFaulty = true := by
  refine ⟨FaultAt.faulty, ?_⟩
  intro hplace
  obtain ⟨node, hnode, hfaulty⟩ := hplace
  refine ⟨node, hnode, ?_⟩
  simp only [NodeInfo.isFaulty, Bool.or_eq_true] at hfaulty
  rcases hfaulty with herror | hmissing
  · exact .inr ⟨herror, h p node hnode herror⟩
  · exact .inl hmissing

/-- Aliases add no fault and leave the flags as they are. -/
theorem FlagsCover.asMet {root : Node} (h : root.FlagsCover) : root.asMet.FlagsCover := by
  intro met hmet child hchild below hbelow hfault
  obtain ⟨p, hp⟩ := mem_preorder.mp hmet
  obtain ⟨i, hi⟩ := List.mem_iff_getElem?.mp hchild
  obtain ⟨q, hq⟩ := mem_preorder.mp hbelow
  have hstep : root.asMet.nodeAt? (i :: p) = some child := by simp [nodeAt?, hp, hi]
  have hplace : root.asMet.nodeAt? (q ++ i :: p) = some below := by
    rw [nodeAt?_append, hstep, Option.bind_some, hq]
  obtain ⟨found, hfound, hfaulty⟩ := FaultAt.faulty (faultAt_iff.mpr ⟨below, hplace, hfault⟩)
  rw [nodeAt?_asMet] at hp
  obtain ⟨node, hnode, rfl⟩ := Option.map_eq_some_iff.mp hp
  rw [nodeAt?_append] at hfound
  obtain ⟨own, hown, hunder⟩ := Option.bind_eq_some_iff.mp hfound
  simp only [nodeAt?, hnode, Option.bind_some] at hown
  rw [info_metFrom, hasError_metAs]
  exact h node (mem_preorder.mpr ⟨p, hnode⟩) own (List.mem_of_getElem? hown) found
    (mem_preorder.mpr ⟨q, hunder⟩) hfaulty

theorem firstFaulty?_asMet {root : Node} (h : root.FlagsCover) (index : Nat) :
    firstFaulty? index root.asMet = scan? index root.asMet.preorder :=
  firstFaulty?_eq_scan? root.asMet index h.asMet

theorem firstFaulty?_eq_none {root : Node} (h : root.FlagsCover) :
    root.asMet.firstFaulty? 0 = none ↔ ∀ p, ¬ root.FaultAt p := by
  rw [firstFaulty?_asMet h, scan?_eq_none]
  constructor
  · intro hclean p hfault
    obtain ⟨met, hmet, hfaulty⟩ := faultAt_iff.mp hfault
    exact hclean met (mem_preorder.mpr ⟨p, hmet⟩) hfaulty
  · intro hclean met hmet hfaulty
    obtain ⟨p, hp⟩ := mem_preorder.mp hmet
    exact hclean p (faultAt_iff.mpr ⟨met, hp, hfaulty⟩)

theorem firstFaulty?_of_clear {root : Node} (h : root.FlagsExact)
    (hclear : root.info.hasError = false) : root.asMet.firstFaulty? 0 = none := by
  refine (firstFaulty?_eq_none h.cover).mpr ?_
  intro p hfault
  obtain ⟨node, hnode, hfaulty⟩ := hfault.faulty
  have hset := h.root.mpr ⟨p, node, hnode, hfaulty⟩
  simp [hclear] at hset

/-- What the search finds stands at the first position with a fault, and its number is that of this
position. -/
theorem firstFaulty?_eq_some {root found : Node} {index : Nat} (h : root.FlagsCover)
    (hfound : root.asMet.firstFaulty? 0 = some (index, found)) :
    ∃ p, root.positions[index]? = some p ∧ root.asMet.nodeAt? p = some found ∧ root.FaultAt p ∧
      ∀ q, Before q p → ¬ root.FaultAt q := by
  rw [firstFaulty?_asMet h] at hfound
  obtain ⟨seen, rest, hnodes, hindex, hfaulty, hclean⟩ := scan?_eq_some hfound
  have hmap := root.asMet.positions_map
  rw [hnodes, List.map_append, List.map_cons, List.map_eq_append_iff] at hmap
  obtain ⟨left, right, hsplit, hleft, hright⟩ := hmap
  obtain ⟨p, later, rfl, hp, -⟩ := List.map_eq_cons_iff.mp hright
  have hlength : left.length = seen.length := by simpa using congrArg List.length hleft
  have hplace : root.positions[index]? = some p := by
    rw [← positions_asMet, hsplit, List.getElem?_append_right (by omega)]
    simp [hindex, hlength]
  refine ⟨p, hplace, hp, faultAt_iff.mpr ⟨found, hp, hfaulty⟩, ?_⟩
  intro q hq hfault
  obtain ⟨met, hmet, hbad⟩ := faultAt_iff.mp hfault
  have hmem : q ∈ left := by
    refine (mem_left hsplit q).mpr ⟨(mem_positions _ q).mpr (by simp [hmet]), hq⟩
  have hsome : some met ∈ seen.map some := by
    rw [← hleft, ← hmet]; exact List.mem_map_of_mem hmem
  obtain ⟨node, hnode, heq⟩ := List.mem_map.mp hsome
  exact hclean node hnode (by rw [Option.some.inj heq]; exact hbad)

end CallSift.Node
