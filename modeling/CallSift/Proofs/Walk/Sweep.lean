import CallSift.Proofs.Walk.Frames
import CallSift.Proofs.Walk.Visit

/-!
# The walk as one pass over the positions

The walk is a recursion that threads its frames through every node. Since those
frames are known in advance at every position (`framesAt`), the walk is one
pass over the positions in pre-order, in which each position is looked at by
itself (`stepAt`) and the first fault ends the pass (`sweep`).

* `visit_stack`: the frames that a visit of a position ends with.
* `walkFrom_sweep`: from it, by induction on the tree, the walk of any part of
  a tree; `walk_eq_sweep`: the walk of a whole tree.
* `sweep_ok`, `stepAt_ok`: what a pass that ends well has found, and what a
  position adds to it.
-/
namespace CallSift

/-- One pass over positions, which ends with the given frames or at the first fault. -/
def sweep (step : Position → Except WalkFault (List Finding)) (scopes : Scopes) :
    List Position → Steps
  | [] => .done scopes
  | p :: rest =>
    match step p with
    | .ok found =>
      let after := sweep step scopes rest
      ⟨found ++ after.findings, after.ending⟩
    | .error fault => .failed fault

theorem sweep_andThen {step : Position → Except WalkFault (List Finding)} {s s' : Scopes}
    {next : Scopes → Steps} {after : List Position} (h : next s = sweep step s' after) :
    ∀ ps : List Position, (sweep step s ps).andThen next = sweep step s' (ps ++ after)
  | [] => by simp [sweep, Steps.andThen, Steps.done, h]
  | p :: ps => by
    have ih := sweep_andThen h ps
    simp only [List.cons_append, sweep]
    cases step p with
    | error fault => rfl
    | ok found =>
      rw [← ih]
      simp only [Steps.andThen]
      cases he : (sweep step s ps).ending <;> simp [he]

/-- What is done to the frames after a pass is done to those that it ends with. -/
theorem sweep_leave (step : Position → Except WalkFault (List Finding)) (s : Scopes)
    (leave : Scopes → Scopes) (ps : List Position) :
    ((sweep step s ps).andThen fun scopes => .done (leave scopes)) = sweep step (leave s) ps := by
  have h := @sweep_andThen step s (leave s) (fun scopes => .done (leave scopes)) [] rfl ps
  rwa [List.append_nil] at h

/-- A pass that ends well was stopped at no position, and its findings are those
of the positions in order. -/
theorem sweep_ok {step : Position → Except WalkFault (List Finding)} {s s' : Scopes} :
    ∀ {ps : List Position}, (sweep step s ps).ending = .ok s' →
      (∀ p ∈ ps, ∃ found, step p = .ok found) ∧
      (sweep step s ps).findings = ps.flatMap fun p => (step p).toOption.getD []
  | [], _ => by simp [sweep, Steps.done]
  | p :: ps, h => by
    unfold sweep at h ⊢
    cases hp : step p with
    | error fault => simp only [hp] at h; cases h
    | ok found =>
      simp only [hp] at h
      obtain ⟨h1, h2⟩ := sweep_ok h
      refine ⟨?_, ?_⟩
      · intro q hq
        rcases List.mem_cons.mp hq with rfl | hq
        · exact ⟨found, hp⟩
        · exact h1 q hq
      · simp [hp, h2, Except.toOption]

namespace Node

open Position

/-! ## One position by itself -/

/-- The positions that come before a position. -/
def earlier (root : Node) (p : Position) : List Position :=
  root.positions.filter fun v => decide (Before v p)

/-- The stack of a walk that has seen all that comes before the position. -/
def framesAt (source : Source) (root : Node) (p : Position) : Scopes :=
  root.stack source (root.earlier p) p

/-- What is found at a position, or the fault that stops a walk there. -/
def stepAt (source : Source) (filter : Filter) (limit : Nat) (root : Node) (p : Position) :
    Except WalkFault (List Finding) :=
  match root.nodeAt? p with
  | none => .ok []
  | some node =>
    if limit < p.length then .error (node.fault source (.tooDeep limit))
    else
      let steps := node.visit source filter (root.parentAt? p)
        (enterScope node.info (root.framesAt source p))
      steps.ending.map fun _ => steps.findings

/-- A position at which the walk is not stopped lies within the limit, and what is found
there is what one of the ways of a visit finds. -/
theorem stepAt_ok {source : Source} {filter : Filter} {limit : Nat} {root node : Node}
    {p : Position} {found : List Finding} (hp : root.nodeAt? p = some node)
    (h : root.stepAt source filter limit p = .ok found) : p.length ≤ limit ∧ ∃ steps scopes,
      Visit source filter (root.parentAt? p) node
        (enterScope node.info (root.framesAt source p)) steps ∧
      steps.ending = .ok scopes ∧ steps.findings = found := by
  unfold stepAt at h
  simp only [hp] at h
  split at h
  · cases h
  · rename_i hd
    obtain ⟨scopes, hend, hfound⟩ := map_eq_ok.mp h
    exact ⟨Nat.not_lt.mp hd, _, scopes, visit_spec .., hend, hfound⟩

theorem earlier_eq {root : Node} {seen rest : List Position} {p : Position}
    (h : root.positions = seen ++ p :: rest) : root.earlier p = seen := by
  have hp := root.positions_pairwise
  unfold earlier
  rw [h] at hp ⊢
  simp only [List.pairwise_append, List.pairwise_cons, List.mem_cons] at hp
  obtain ⟨-, ⟨hright, -⟩, hleft⟩ := hp
  have h1 : seen.filter (fun v => decide (Before v p)) = seen := by
    apply List.filter_eq_self.mpr
    intro v hv; simpa using hleft v hv p (Or.inl rfl)
  have h2 : rest.filter (fun v => decide (Before v p)) = [] := by
    apply List.filter_eq_nil_iff.mpr
    intro v hv; simpa using before_asymm (hright v hv)
  simp [h1, h2, before_irrefl]

theorem mem_earlier {root : Node} {u v : Position} :
    v ∈ root.earlier u ↔ (root.nodeAt? v).isSome ∧ Before v u := by
  unfold earlier
  rw [List.mem_filter, mem_positions]; simp

/-- Nothing that comes before a position lies at or below it. -/
theorem earlier_not_below {root : Node} {p : Position} : ∀ v ∈ root.earlier p, ¬ p <:+ v := by
  intro v hv hbelow
  have hb := (mem_earlier.mp hv).2
  by_cases hpv : p = v
  · subst hpv; exact before_irrefl _ hb
  · exact before_asymm hb (before_of_above hbelow hpv)

/-! ## The walk -/

/-- A visit of a position that is not stopped ends with the frames of what comes
next: those of a walk that has seen the position, too. -/
theorem visit_stack {source : Source} {filter : Filter} {root node : Node} {p : Position}
    {seen : List Position} {s : Scopes} (hp : root.nodeAt? p = some node)
    (h : (node.visit source filter (root.parentAt? p) (root.stack source seen (0 :: p))).ending =
      .ok s) : s = root.stack source (seen ++ [p]) (0 :: p) := by
  have hrole : root.roleAt? p = some (Role.of (root.parentAt? p) node) := by simp [roleAt?, hp]
  have hskip : (node.kind ≠ "identifier" ∨ Role.of (root.parentAt? p) node ≠ .binding) →
      root.stack source seen (0 :: p) = root.stack source (seen ++ [p]) (0 :: p) := by
    intro hn
    refine (stack_skip ?_ _).symm
    have : ¬ (node.kind = "identifier" ∧ root.roleAt? p = some .binding) := by
      rw [hrole, Option.some.injEq]
      rintro ⟨h1, h2⟩
      exact hn.elim (absurd h1) (absurd h2)
    simp [bound?, hp, this]
  have hv := node.visit_spec source filter (root.parentAt? p) (root.stack source seen (0 :: p))
  generalize node.visit source filter (root.parentAt? p) (root.stack source seen (0 :: p)) = steps
    at h hv
  cases hv with
  | call hk _ | command hk _ =>
    rw [Steps.offer_ending] at h; cases h
    exact hskip (Or.inl (by simp [hk]))
  | unnamed hk _ => cases h; exact hskip (Or.inl (by simp [hk]))
  | binding hk ht hr =>
    cases h
    exact stack_declare (bound?_eq_some.mpr ⟨node, hp, hk, by rw [hrole, hr], ht⟩) 0
  | attached _ _ hr =>
    cases h
    refine hskip (Or.inr ?_)
    rcases hr with hr | hr <;> simp [hr]
  | known _ _ hr _ => cases h; exact hskip (Or.inr (by simp [hr]))
  | bare _ _ hr _ =>
    rw [Steps.offer_ending] at h; cases h
    exact hskip (Or.inr (by simp [hr]))
  | other _ _ hk _ => cases h; exact hskip (Or.inl hk)
  | stopped _ => cases h

section
variable (source : Source) (filter : Filter) (limit : Nat) (root : Node)

/-- Entering and visiting a node is a pass over its position alone. -/
theorem visit_sweep {node : Node} {p : Position} {seen rest : List Position}
    (hp : root.nodeAt? p = some node) (hs : root.positions = seen ++ p :: rest)
    (hd : ¬ limit < p.length) :
    node.visit source filter (root.parentAt? p) (enterScope node.info (root.stack source seen p)) =
      sweep (root.stepAt source filter limit) (root.stack source (seen ++ [p]) (0 :: p)) [p] := by
  have hseen := earlier_eq hs
  have henter := stack_enter source hp (hseen ▸ root.earlier_not_below) 0
  have hstep : root.stepAt source filter limit p =
      let steps := node.visit source filter (root.parentAt? p) (root.stack source seen (0 :: p))
      steps.ending.map fun _ => steps.findings := by
    simp only [stepAt, hp, if_neg hd, framesAt, hseen, henter]
  rw [henter]
  unfold sweep
  rw [hstep]
  cases he : (node.visit source filter (root.parentAt? p)
      (root.stack source seen (0 :: p))).ending with
  | error fault => simpa [he, Except.map] using visit_failed he
  | ok s =>
    simp only [he, Except.map, sweep, Steps.done, List.append_nil]
    rw [← visit_stack hp he, ← he]

mutual
theorem walkFrom_sweep (p : Position) (seen rest : List Position) : ∀ {node : Node},
    root.nodeAt? p = some node → root.positions = seen ++ positionsFrom p node ++ rest →
    walkFrom source filter limit p.length (root.parentAt? p) (root.stack source seen p) node =
      sweep (root.stepAt source filter limit)
        (root.stack source (seen ++ positionsFrom p node) p) (positionsFrom p node)
  | mk info children, hp, hs => by
    have hs' : root.positions = seen ++ p :: (positionsAll p 0 children ++ rest) := by
      rw [hs, positionsFrom]; simp
    unfold walkFrom
    split
    · rename_i hd
      have hstep : root.stepAt source filter limit p =
          .error (fault source (mk info children) (.tooDeep limit)) := by
        simp only [stepAt, hp, if_pos hd]
      simp [positionsFrom, sweep, hstep]
    · rename_i hd
      have hvisit := visit_sweep source filter limit root hp hs' hd
      -- the children are walked with the node itself seen already
      have hbelow := walkAll_sweep p 0 (seen ++ [p]) rest hp rfl (by rw [hs']; simp [Node.children])
      have hleave := stack_leave source (seen ++ [p] ++ positionsAll p 0 children) hp 0
      simp only [Node.info, Node.children, List.drop_zero] at hvisit hbelow hleave
      rw [hvisit, sweep_andThen hbelow, sweep_leave, hleave, positionsFrom]
      simp
theorem walkAll_sweep (up : Position) (i : Nat) (seen rest : List Position) {parent : Node}
    (hp : root.nodeAt? up = some parent) : ∀ {nodes : List Node},
    parent.children.drop i = nodes → root.positions = seen ++ positionsAll up i nodes ++ rest →
    walkAll source filter limit (up.length + 1) parent (root.stack source seen (i :: up)) nodes =
      sweep (root.stepAt source filter limit)
        (root.stack source (seen ++ positionsAll up i nodes) (i :: up)) (positionsAll up i nodes)
  | [], _, _ => by simp [walkAll, positionsAll, sweep]
  | node :: others, hc, hs => by
    obtain ⟨hnode, hothers⟩ := nodeAt?_child hp hc
    have hfirst := walkFrom_sweep (i :: up) seen (positionsAll up (i + 1) others ++ rest) hnode (by
      rw [hs, positionsAll]; simp)
    have hlater := walkAll_sweep up (i + 1) (seen ++ positionsFrom (i :: up) node) rest hp
      hothers (by rw [hs, positionsAll]; simp)
    have hparent : root.parentAt? (i :: up) = some parent := hp
    rw [hparent, List.length_cons] at hfirst
    rw [walkAll, hfirst, sweep_andThen hlater, positionsAll, List.append_assoc]
    rfl
end

/-- The walk of a tree is one pass over its positions. -/
theorem walk_eq_sweep : root.walk source filter limit =
    sweep (root.stepAt source filter limit) (root.stack source root.positions [])
      root.positions := by
  have hs : root.positions = [] ++ positionsFrom [] root ++ [] := by simp [positions]
  exact walkFrom_sweep source filter limit root [] [] [] rfl hs

end

end Node
end CallSift
