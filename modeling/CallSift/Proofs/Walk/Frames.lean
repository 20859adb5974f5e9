import CallSift.Proofs.Syntax.Position
import CallSift.Walk.Basic

/-!
# Frames as a relation between positions

The walk keeps one stack of frames and changes it as it goes. Here the same
frames are read off the tree: `frameAt` is the frame of a position, `Visible`
the frames in sight of it, and `Local` says that an identifier before it binds a
name there.

`stack` writes down the stack of a walk that stands before a position and has
seen the positions in a list. Each move of the walk leads from one such stack
to the next:

* `stack_enter`, `stack_declare`, `stack_skip`, `stack_leave`: the step lemmas.
* `binds_stack`: a name is bound in such a stack exactly when some position seen
  binds it in a visible frame.
-/
namespace CallSift.Node

open Position

/-! ## The static relation -/

/-- How the node at a position opens a scope, if it opens one. -/
def opens? (root : Node) (p : Position) : Option ScopeKind :=
  (root.nodeAt? p).bind fun node => ScopeKind.of? node.kind

/-- The frame of a position: the nearest position above that opens a scope, or
`none`, the frame of the whole source. -/
def frameAt (root : Node) : Position → Option Position
  | [] => none
  | _ :: up => if (root.opens? up).isSome then some up else frameAt root up

/-- The frames in sight: the own one and, behind each frame that inherits, the
frame around it. -/
inductive Visible (root : Node) (u : Position) : Option Position → Prop
  | own : Visible root u (root.frameAt u)
  | outer {q : Position} : Visible root u (some q) → root.opens? q = some .inheriting →
      Visible root u (root.frameAt q)

/-- What the node at a position stands for in its parent. -/
def roleAt? (root : Node) (p : Position) : Option Role :=
  (root.nodeAt? p).map (Role.of (root.parentAt? p))

/-- The identifier at a position binds a name. -/
def BindsAt (source : Source) (root : Node) (v : Position) (name : String) : Prop :=
  ∃ node, root.nodeAt? v = some node ∧ node.kind = "identifier" ∧
    root.roleAt? v = some .binding ∧ node.text? source = some name

/-- An identifier before the position binds the name in a frame in sight. -/
def Local (source : Source) (root : Node) (u : Position) (name : String) : Prop :=
  ∃ v, Before v u ∧ root.BindsAt source v name ∧ root.Visible u (root.frameAt v)

/-- The name that the node at a position binds. -/
def bound? (source : Source) (root : Node) (v : Position) : Option String :=
  (root.nodeAt? v).bind fun node =>
    if node.kind = "identifier" ∧ root.roleAt? v = some .binding then node.text? source else none

theorem bound?_eq_some {source : Source} {root : Node} {v : Position} {name : String} :
    root.bound? source v = some name ↔ root.BindsAt source v name := by
  unfold bound? BindsAt
  cases root.nodeAt? v with
  | none => simp
  | some node =>
    simp only [Option.bind_some, Option.some.injEq, exists_eq_left']
    split
    · rename_i h; simp [h]
    · rename_i h
      constructor
      · intro h0; cases h0
      · rintro ⟨h1, h2, -⟩; exact absurd ⟨h1, h2⟩ h

/-- A frame lies above every position whose frame it is. -/
theorem frameAt_above {root : Node} : ∀ {v q : Position}, root.frameAt v = some q →
    q <:+ v ∧ q.length < v.length
  | [], q, h => by cases h
  | i :: up, q, h => by
    unfold frameAt at h
    split at h
    · cases h; exact ⟨List.suffix_cons i up, by simp⟩
    · obtain ⟨h1, h2⟩ := frameAt_above h
      exact ⟨h1.trans (List.suffix_cons i up), by simp only [List.length_cons]; omega⟩

/-- Seen from the position, the frames in sight are its own and, if that one
inherits, those in sight of it. -/
theorem visible_iff {root : Node} {u : Position} {f : Option Position} :
    root.Visible u f ↔ f = root.frameAt u ∨
      ∃ q, root.frameAt u = some q ∧ root.opens? q = some .inheriting ∧ root.Visible q f := by
  constructor
  · intro h
    induction h with
    | own => exact Or.inl rfl
    | @outer q _ hk ih =>
      rcases ih with ih | ⟨q', h1, h2, h3⟩
      · exact Or.inr ⟨q, ih.symm, hk, .own⟩
      · exact Or.inr ⟨q', h1, h2, .outer h3 hk⟩
  · rintro (rfl | ⟨q, h1, h2, h3⟩)
    · exact .own
    · have hq : root.Visible u (some q) := h1 ▸ .own
      induction h3 with
      | own => exact .outer hq h2
      | outer _ hk ih => exact .outer ih hk

/-! ## The stack of a walk -/

/-- The frames around a position, innermost first, visible or not. -/
def enclosing (root : Node) : Position → List (Option Position)
  | [] => [none]
  | _ :: up => if (root.opens? up).isSome then some up :: enclosing root up else enclosing root up

def frameKind (root : Node) : Option Position → ScopeKind
  | none => .fresh
  | some q => (root.opens? q).getD .fresh

/-- The name that a position binds in the frame. -/
def boundIn? (source : Source) (root : Node) (f : Option Position) (v : Position) :
    Option String :=
  if root.frameAt v = f then root.bound? source v else none

/-- The names that the positions bind in the frame, the latest first. -/
def namesIn (source : Source) (root : Node) (seen : List Position) (f : Option Position) :
    List String :=
  (seen.filterMap (root.boundIn? source f)).reverse

/-- The stack of a walk that stands before `p` and has seen `seen`. -/
def stack (source : Source) (root : Node) (seen : List Position) (p : Position) : Scopes :=
  (root.enclosing p).map fun f => ⟨root.frameKind f, root.namesIn source seen f⟩

theorem enclosing_eq (root : Node) : ∀ p : Position, root.enclosing p =
    root.frameAt p :: (match root.frameAt p with
      | none => []
      | some q => root.enclosing q)
  | [] => rfl
  | i :: up => by
    rw [enclosing, frameAt]
    split
    · rfl
    · exact enclosing_eq root up

/-- All frames around a position but its own lie strictly above its own. -/
theorem enclosing_outer {root : Node} {p : Position} {f : Option Position}
    (h : f ∈ root.enclosing p) : f = none ∨ ∃ q, f = some q ∧ q.length < p.length := by
  induction p with
  | nil => exact Or.inl (by simpa [enclosing] using h)
  | cons i up ih =>
    unfold enclosing at h
    split at h
    · rcases List.mem_cons.mp h with rfl | h
      · exact Or.inr ⟨up, rfl, by simp⟩
      · rcases ih h with h0 | ⟨q, h1, h2⟩
        · exact Or.inl h0
        · exact Or.inr ⟨q, h1, by simp only [List.length_cons]; omega⟩
    · rcases ih h with h0 | ⟨q, h1, h2⟩
      · exact Or.inl h0
      · exact Or.inr ⟨q, h1, by simp only [List.length_cons]; omega⟩

theorem namesIn_append (source : Source) (root : Node) (seen : List Position) (v : Position)
    (f : Option Position) : root.namesIn source (seen ++ [v]) f =
      (root.boundIn? source f v).toList ++ root.namesIn source seen f := by
  unfold namesIn
  rw [List.filterMap_append, List.reverse_append]
  cases h : root.boundIn? source f v <;> simp [h]

theorem namesIn_other {source : Source} {root : Node} {seen : List Position} {v : Position}
    {f : Option Position} (h : root.frameAt v ≠ f) :
    root.namesIn source (seen ++ [v]) f = root.namesIn source seen f := by
  rw [namesIn_append]; simp [boundIn?, h]

/-- Entering the node at `p`, of whose inside nothing is seen yet. -/
theorem stack_enter (source : Source) {root node : Node} {seen : List Position} {p : Position}
    (hp : root.nodeAt? p = some node) (hs : ∀ v ∈ seen, ¬ p <:+ v) (i : Nat) :
    enterScope node.info (root.stack source seen p) = root.stack source seen (i :: p) := by
  have ho : root.opens? p = ScopeKind.of? node.info.kind := by simp [opens?, hp, Node.kind]
  unfold enterScope stack
  rw [enclosing, ho]
  cases hk : ScopeKind.of? node.info.kind with
  | none => simp
  | some kind =>
    have hempty : root.namesIn source seen (some p) = [] := by
      unfold namesIn
      rw [List.reverse_eq_nil_iff, List.filterMap_eq_nil_iff]
      intro v hv
      have hne : root.frameAt v ≠ some p := fun h => hs v hv (frameAt_above h).1
      simp [boundIn?, hne]
    simp [Scopes.enter, hempty, frameKind, ho, hk]

/-- Leaving the node at `p` drops the frame that entering it has opened. -/
theorem stack_leave (source : Source) {root node : Node} (seen : List Position) {p : Position}
    (hp : root.nodeAt? p = some node) (i : Nat) :
    leaveScope node.info (root.stack source seen (i :: p)) = root.stack source seen p := by
  have ho : root.opens? p = ScopeKind.of? node.info.kind := by simp [opens?, hp, Node.kind]
  unfold leaveScope stack
  rw [enclosing, ho]
  cases ScopeKind.of? node.info.kind <;> simp [Scopes.leave]

/-- A position that binds no name leaves every frame alone. -/
theorem stack_skip {source : Source} {root : Node} {seen : List Position} {v : Position}
    (h : root.bound? source v = none) (p : Position) :
    root.stack source (seen ++ [v]) p = root.stack source seen p := by
  have hn : ∀ f, root.boundIn? source f v = none := by
    intro f; unfold boundIn?; split
    · exact h
    · rfl
  simp [stack, namesIn_append, hn]

/-- An identifier that binds a name adds it to its own frame and to no other. -/
theorem stack_declare {source : Source} {root : Node} {seen : List Position} {p : Position}
    {name : String} (h : root.bound? source p = some name) (i : Nat) :
    (root.stack source seen (i :: p)).declare name = root.stack source (seen ++ [p]) (i :: p) := by
  obtain ⟨node, hp, hk, -, -⟩ := bound?_eq_some.mp h
  -- an identifier opens no scope, so the frame on top is its own
  have ho : root.opens? p = none := by simp [opens?, hp, hk, ScopeKind.of?]
  have hown : root.boundIn? source (root.frameAt p) p = some name := by simp [boundIn?, h]
  unfold stack
  rw [enclosing, ho, enclosing_eq]
  simp only [Option.isSome_none, Bool.false_eq_true, if_false, List.map_cons, Scopes.declare,
    namesIn_append, hown, Option.toList_some, List.singleton_append, List.cons.injEq, true_and]
  cases hf : root.frameAt p with
  | none => rfl
  | some q =>
    apply List.map_congr_left
    intro f hmem
    have hne : root.frameAt p ≠ f := by
      rcases enclosing_outer hmem with rfl | ⟨q', rfl, hlt⟩
      · rw [hf]; simp
      · rw [hf]; rintro ⟨⟩; omega
    rw [← namesIn_append, namesIn_other hne]

/-! ## Bound names -/

theorem stack_eq (source : Source) (root : Node) (seen : List Position) (u : Position) :
    root.stack source seen u =
      ⟨root.frameKind (root.frameAt u), root.namesIn source seen (root.frameAt u)⟩ ::
        (match root.frameAt u with
          | none => []
          | some q => root.stack source seen q) := by
  unfold stack
  rw [enclosing_eq, List.map_cons]
  cases root.frameAt u <;> rfl

theorem mem_namesIn {source : Source} {root : Node} {seen : List Position} {f : Option Position}
    {name : String} : name ∈ root.namesIn source seen f ↔
      ∃ v ∈ seen, root.frameAt v = f ∧ root.bound? source v = some name := by
  unfold namesIn boundIn?
  simp only [List.mem_reverse, List.mem_filterMap]
  constructor
  · rintro ⟨v, hv, h⟩
    split at h
    · exact ⟨v, hv, ‹_›, h⟩
    · cases h
  · rintro ⟨v, hv, hf, h⟩
    exact ⟨v, hv, by rw [if_pos hf]; exact h⟩

/-- The stack binds the names that the positions seen bind in a visible frame. -/
theorem binds_stack (source : Source) (root : Node) (seen : List Position) (name : String) :
    ∀ u : Position, (root.stack source seen u).binds name = true ↔
      ∃ f, root.Visible u f ∧ name ∈ root.namesIn source seen f := by
  intro u
  -- on the length: the frame behind the own one is that of a shorter position
  induction hn : u.length using Nat.strongRecOn generalizing u with
  | ind n ih =>
    rw [stack_eq, Scopes.binds]
    simp only [Bool.or_eq_true, Bool.and_eq_true, List.contains_iff_mem, beq_iff_eq]
    cases hf : root.frameAt u with
    | none =>
      simp only [frameKind, reduceCtorEq, false_and, or_false]
      constructor
      · intro h; exact ⟨none, hf ▸ .own, h⟩
      · rintro ⟨f, hv, h⟩
        rcases visible_iff.mp hv with rfl | ⟨q, h1, -, -⟩
        · rw [hf] at h; exact h
        · rw [hf] at h1; cases h1
    | some q =>
      have hkind : root.frameKind (some q) = .inheriting ↔ root.opens? q = some .inheriting := by
        cases hq : root.opens? q <;> simp [frameKind, hq]
      have hlt := (frameAt_above hf).2
      simp only [hkind, ih q.length (by omega) q rfl]
      constructor
      · rintro (h | ⟨hk, f, hv, h⟩)
        · exact ⟨some q, hf ▸ .own, h⟩
        · exact ⟨f, visible_iff.mpr (Or.inr ⟨q, hf, hk, hv⟩), h⟩
      · rintro ⟨f, hv, h⟩
        rcases visible_iff.mp hv with rfl | ⟨q', h1, h2, h3⟩
        · rw [hf] at h; exact Or.inl h
        · rw [hf] at h1; cases h1; exact Or.inr ⟨h2, f, h3, h⟩

end CallSift.Node
