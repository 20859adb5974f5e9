import CallSift.Proofs.Syntax.Alias
import CallSift.Proofs.Walk.Candidates
import CallSift.Proofs.Walk.Readable

/-!
# Where a walk fails

A node stops a walk when it lies too deep, or when it is a call with neither name nor
arguments. On a well-formed tree nothing else does, and the first such node in
pre-order decides.

* `sweep_failed_iff`: a pass is stopped at the first position that fails.
* `stepAt_failed_iff`: a position fails exactly when its node stops a walk.
* `walk_larger`: within a larger limit a walk that ends well goes the same way.
* `walk_fails_iff`: when a traversal fails, and with which fault, by the kinds under which it
  meets the nodes.
* `comment_met_as_call`: a call with a name that is stopped at the comment in it.
-/
namespace CallSift

/-- A pass fails at the first position that does. -/
theorem sweep_failed_iff {step : Position → Except WalkFault (List Finding)} {s : Scopes}
    {fault : WalkFault} : ∀ {ps : List Position}, (sweep step s ps).ending = .error fault ↔
      ∃ seen p rest, ps = seen ++ p :: rest ∧ (∀ q ∈ seen, ∃ found, step q = .ok found) ∧
        step p = .error fault
  | [] => by simp [sweep, Steps.done]
  | p :: ps => by
    unfold sweep
    cases hp : step p with
    | error stopped =>
      constructor
      · intro h
        cases h; exact ⟨[], p, ps, rfl, by simp, hp⟩
      · rintro ⟨seen, q, rest, heq, hseen, hq⟩
        cases seen with
        | nil =>
          cases heq
          rw [hp] at hq; cases hq; rfl
        | cons first seen =>
          cases heq
          obtain ⟨found, hfound⟩ := hseen p List.mem_cons_self
          rw [hp] at hfound; cases hfound
    | ok found =>
      have hrest : (sweep step s ps).ending = .error fault ↔ _ := sweep_failed_iff
      simp only [hrest]
      constructor
      · rintro ⟨seen, q, rest, rfl, hseen, hq⟩
        refine ⟨p :: seen, q, rest, rfl, ?_, hq⟩
        intro r hr
        rcases List.mem_cons.mp hr with rfl | hr
        · exact ⟨found, hp⟩
        · exact hseen r hr
      · rintro ⟨seen, q, rest, heq, hseen, hq⟩
        cases seen with
        | nil =>
          cases heq
          rw [hp] at hq; cases hq
        | cons first seen =>
          cases heq
          exact ⟨seen, q, rest, rfl, fun r hr => hseen r (List.mem_cons_of_mem p hr), hq⟩

theorem sweep_congr {step other : Position → Except WalkFault (List Finding)} (s : Scopes) :
    ∀ {ps : List Position}, (∀ p ∈ ps, step p = other p) → sweep step s ps = sweep other s ps
  | [], _ => rfl
  | p :: ps, h => by
    rw [sweep, sweep, h p List.mem_cons_self,
      sweep_congr s fun q hq => h q (List.mem_cons_of_mem p hq)]

namespace Node

open Position

/-- The node at the position stops a walk with the limit, for the reason given. -/
def StopsAt (limit : Nat) (root : Node) (p : Position) (reason : WalkReason) : Prop :=
  ∃ node, root.nodeAt? p = some node ∧
    ((limit < p.length ∧ reason = .tooDeep limit) ∨
      (p.length ≤ limit ∧ node.kind = "call" ∧ node.Nameless ∧ reason = .namelessCall))

variable {source : Source} {root : Node}

theorem stepAt_failed_iff (h : root.WellFormed source) {filter : Filter} {limit : Nat}
    {p : Position} {node : Node} (hp : root.nodeAt? p = some node) {fault : WalkFault} :
    root.stepAt source filter limit p = .error fault ↔
      ∃ reason, root.StopsAt limit p reason ∧ fault = node.fault source reason := by
  have hparent : ∀ above, root.parentAt? p = some above → above.WellFormed source :=
    fun above ha => h.parentAt ha
  simp only [stepAt, hp, StopsAt, Option.some.injEq, exists_eq_left']
  by_cases hd : limit < p.length
  · rw [if_pos hd]
    constructor
    · intro hf
      cases hf; exact ⟨_, .inl ⟨hd, rfl⟩, rfl⟩
    · rintro ⟨reason, ⟨-, rfl⟩ | ⟨hle, -⟩, rfl⟩
      · rfl
      · omega
  · rw [if_neg hd, map_eq_error, visit_failed_iff (h.nodeAt hp) hparent]
    constructor
    · rintro ⟨hk, hn, rfl⟩
      exact ⟨_, .inr ⟨by omega, hk, hn, rfl⟩, rfl⟩
    · rintro ⟨reason, ⟨hlt, -⟩ | ⟨-, hk, hn, rfl⟩, rfl⟩
      · exact absurd hlt hd
      · exact ⟨hk, hn, rfl⟩

/-- The walk fails with the fault of the first node in pre-order that stops it. -/
theorem walk_failed_iff (h : root.WellFormed source) {filter : Filter} {limit : Nat}
    {fault : WalkFault} : (root.walk source filter limit).ending = .error fault ↔
      ∃ p node reason, root.nodeAt? p = some node ∧ root.StopsAt limit p reason ∧
        (∀ q, Before q p → ∀ other, ¬ root.StopsAt limit q other) ∧
        fault = node.fault source reason := by
  rw [walk_eq_sweep, sweep_failed_iff]
  constructor
  · rintro ⟨seen, p, rest, hsplit, hseen, hstep⟩
    have hmem : p ∈ root.positions := by simp [hsplit]
    obtain ⟨node, hp⟩ := Option.isSome_iff_exists.mp ((mem_positions root p).mp hmem)
    obtain ⟨reason, hstop, rfl⟩ := (stepAt_failed_iff h hp).mp hstep
    refine ⟨p, node, reason, hp, hstop, ?_, rfl⟩
    intro q hq other hother
    obtain ⟨earlier, hnode, -⟩ := id hother
    have hleft : q ∈ seen :=
      (mem_left hsplit q).mpr ⟨(mem_positions root q).mpr (by simp [hnode]), hq⟩
    obtain ⟨found, hok⟩ := hseen q hleft
    rw [(stepAt_failed_iff h hnode).mpr ⟨other, hother, rfl⟩] at hok
    cases hok
  · rintro ⟨p, node, reason, hp, hstop, hfirst, rfl⟩
    obtain ⟨seen, rest, hsplit⟩ := List.append_of_mem ((mem_positions root p).mpr (by simp [hp]))
    refine ⟨seen, p, rest, hsplit, ?_, (stepAt_failed_iff h hp).mpr ⟨reason, hstop, rfl⟩⟩
    intro q hq
    obtain ⟨hmem, hbefore⟩ := (mem_left hsplit q).mp hq
    obtain ⟨earlier, hnode⟩ := Option.isSome_iff_exists.mp ((mem_positions root q).mp hmem)
    cases hstep : root.stepAt source filter limit q with
    | ok found => exact ⟨found, rfl⟩
    | error stopped =>
      obtain ⟨other, hother, -⟩ := (stepAt_failed_iff h hnode).mp hstep
      exact absurd hother (hfirst q hbefore other)

/-- Of the positions that stop a walk one comes first. -/
theorem exists_first_stop {limit : Nat} {p : Position} {reason : WalkReason}
    (h : root.StopsAt limit p reason) : ∃ q first, root.StopsAt limit q first ∧
      ∀ r, Before r q → ∀ other, ¬ root.StopsAt limit r other := by
  classical
  let stops : Position → Bool := fun q => decide (∃ other, root.StopsAt limit q other)
  have hmem : p ∈ root.positions := by
    obtain ⟨node, hp, -⟩ := id h
    exact (mem_positions root p).mpr (by simp [hp])
  cases hfind : root.positions.find? stops with
  | none => exact absurd (decide_eq_true ⟨reason, h⟩) (List.find?_eq_none.mp hfind p hmem)
  | some q =>
    obtain ⟨hq, seen, rest, hsplit, hseen⟩ := List.find?_eq_some_iff_append.mp hfind
    obtain ⟨first, hfirst⟩ := of_decide_eq_true hq
    refine ⟨q, first, hfirst, ?_⟩
    intro r hr other hother
    obtain ⟨node, hnode, -⟩ := id hother
    have hleft : r ∈ seen :=
      (mem_left hsplit r).mpr ⟨(mem_positions root r).mpr (by simp [hnode]), hr⟩
    have := hseen r hleft
    simp only [stops, Bool.not_eq_true', decide_eq_false_iff_not] at this
    exact this ⟨other, hother⟩

/-! ## Larger limits -/

theorem stepAt_larger {filter : Filter} {limit larger : Nat} {p : Position}
    {found : List Finding} (hle : limit ≤ larger)
    (h : root.stepAt source filter limit p = .ok found) :
    root.stepAt source filter larger p = .ok found := by
  unfold stepAt at h ⊢
  cases hp : root.nodeAt? p with
  | none => simpa only [hp] using h
  | some node =>
    simp only [hp] at h ⊢
    split at h
    · cases h
    · rwa [if_neg (by omega)]

/-- A walk that ends well goes the same way within every larger limit. -/
theorem walk_larger {filter : Filter} {limit larger : Nat} {scopes : Scopes}
    (hle : limit ≤ larger) (h : (root.walk source filter limit).ending = .ok scopes) :
    root.walk source filter larger = root.walk source filter limit := by
  rw [walk_eq_sweep] at h
  rw [walk_eq_sweep, walk_eq_sweep]
  apply sweep_congr
  intro p hp
  obtain ⟨found, hok⟩ := (sweep_ok h).1 p hp
  rw [hok]
  exact stepAt_larger hle hok

/-! ## Trees under their own kinds -/

/-- A traversal meets the node at the position as one that stops a walk with the limit, for the
reason given. -/
def MeetsStop (limit : Nat) (root : Node) (p : Position) (reason : WalkReason) : Prop :=
  ∃ node, root.nodeAt? p = some node ∧
    ((limit < p.length ∧ reason = .tooDeep limit) ∨
      (p.length ≤ limit ∧ (root.metAt? p).getD node.kind = "call" ∧ node.Nameless ∧
        reason = .namelessCall))

theorem firstLine_metFrom (met : Option String) (node : Node) :
    (metFrom met node).firstLine source = node.firstLine source := by
  unfold firstLine
  rw [start_metFrom]

theorem stopsAt_asMet {limit : Nat} {p : Position} {reason : WalkReason} :
    root.asMet.StopsAt limit p reason ↔ root.MeetsStop limit p reason := by
  have hnameless : ∀ node, (metFrom (root.metAt? p) node).Nameless ↔ node.Nameless := fun node =>
    and_congr child?_metFrom_eq_none child?_metFrom_eq_none
  simp only [StopsAt, MeetsStop, nodeAt?_asMet, Option.map_eq_some_iff]
  constructor
  · rintro ⟨_, ⟨node, hnode, rfl⟩, hstop⟩
    rw [kind_metFrom, hnameless] at hstop
    exact ⟨node, hnode, hstop⟩
  · rintro ⟨node, hnode, hstop⟩
    refine ⟨_, ⟨node, hnode, rfl⟩, ?_⟩
    rwa [kind_metFrom, hnameless]

/-- Where nothing is met as a call that is none, the calls are those of the tree. -/
theorem meetsStop_iff (hown : ∀ node ∈ root.preorder, node.kind = node.ownKind)
    (hcalls : ∀ p, root.metAt? p ≠ some "call") {limit : Nat} {p : Position}
    {reason : WalkReason} : root.MeetsStop limit p reason ↔ root.StopsAt limit p reason := by
  unfold MeetsStop StopsAt
  refine exists_congr fun node => and_congr_right fun hnode => ?_
  have hkind : (root.metAt? p).getD node.kind = "call" ↔ node.kind = "call" := by
    cases hmet : root.metAt? p with
    | none => rfl
    | some kind =>
      have hextra := isExtra_of_metAt? hnode hmet
      rw [Option.getD_some]
      constructor
      · rintro rfl
        exact absurd hmet (hcalls p)
      · intro hcall
        rw [isExtra, ← hown node (mem_preorder.mpr ⟨p, hnode⟩), hcall] at hextra
        exact absurd hextra (by decide)
  rw [hkind]

/-- **Failures.** A traversal of a well-formed tree fails exactly when some node lies deeper than
the limit, or is met within it as a call and has neither name nor arguments. Of all such nodes the
first in pre-order is the one reported, with the line on which it starts. So what is found within
a limit is found within every larger one. A comment or another extra node below a call that the
grammar makes of another rule is met as a call as well; where there is none such, the calls that
stop a traversal are the calls of the tree. -/
theorem walk_fails_iff {source : Source} {root : Node} (h : root.WellFormed source)
    (filter : Filter) (limit : Nat) :
    let result := fun limit => (Extraction.ofSteps (root.asMet.walk source filter limit)).result
    ((∃ fault, result limit = .error fault) ↔
      ∃ p node, root.nodeAt? p = some node ∧
        (limit < p.length ∨ (p.length ≤ limit ∧ (root.metAt? p).getD node.kind = "call" ∧
          node.child? "method" = none ∧ node.child? "arguments" = none))) ∧
    (∀ fault, result limit = .error fault ↔
      ∃ p node reason, root.nodeAt? p = some node ∧ root.MeetsStop limit p reason ∧
        (∀ q, Before q p → ∀ other, ¬ root.MeetsStop limit q other) ∧
        fault = .walk ⟨reason, source.row node.start + 1⟩) ∧
    (∀ larger refs, limit ≤ larger → result limit = .ok refs → result larger = .ok refs) ∧
    ((∀ node ∈ root.preorder, node.kind = node.ownKind) → (∀ p, root.metAt? p ≠ some "call") →
      ∀ p reason, root.MeetsStop limit p reason ↔ root.StopsAt limit p reason) := by
  intro result
  have hfault : ∀ fault, result limit = .error fault ↔
      ∃ p node reason, root.nodeAt? p = some node ∧ root.MeetsStop limit p reason ∧
        (∀ q, Before q p → ∀ other, ¬ root.MeetsStop limit q other) ∧
        fault = .walk ⟨reason, source.row node.start + 1⟩ := by
    intro fault
    simp only [result, Extraction.ofSteps_error, walk_failed_iff h.asMet, stopsAt_asMet,
      nodeAt?_asMet, Option.map_eq_some_iff]
    constructor
    · rintro ⟨stopped, ⟨p, _, reason, ⟨node, hp, rfl⟩, hstop, hfirst, rfl⟩, rfl⟩
      exact ⟨p, node, reason, hp, hstop, hfirst, by rw [fault, firstLine_metFrom]; rfl⟩
    · rintro ⟨p, node, reason, hp, hstop, hfirst, rfl⟩
      refine ⟨_, ⟨p, _, reason, ⟨node, hp, rfl⟩, hstop, hfirst, rfl⟩, ?_⟩
      rw [fault, firstLine_metFrom]
      rfl
  refine ⟨?_, hfault, ?_, fun hown hcalls p reason => meetsStop_iff hown hcalls⟩
  · constructor
    · rintro ⟨fault, hf⟩
      obtain ⟨p, node, reason, hp, ⟨node', hp', hstop⟩, -, -⟩ := (hfault fault).mp hf
      rw [hp] at hp'; cases hp'
      refine ⟨p, node, hp, ?_⟩
      rcases hstop with ⟨hd, -⟩ | ⟨hd, hk, hn, -⟩
      · exact .inl hd
      · exact .inr ⟨hd, hk, hn⟩
    · rintro ⟨p, node, hp, hstop⟩
      have hstops : ∃ reason, root.asMet.StopsAt limit p reason := by
        simp only [stopsAt_asMet]
        rcases hstop with hd | ⟨hd, hk, hn⟩
        · exact ⟨_, node, hp, .inl ⟨hd, rfl⟩⟩
        · exact ⟨_, node, hp, .inr ⟨hd, hk, hn, rfl⟩⟩
      obtain ⟨reason, hreason⟩ := hstops
      obtain ⟨q, first, hq, hfirst⟩ := exists_first_stop hreason
      simp only [stopsAt_asMet] at hq hfirst
      obtain ⟨other, hother, -⟩ := id hq
      exact ⟨_, (hfault _).mpr ⟨q, other, first, hother, hq, hfirst, rfl⟩⟩
  · intro larger refs hle hok
    obtain ⟨scopes, hend, -⟩ := Extraction.ofSteps_ok hok
    simp only [result] at hok ⊢
    rw [walk_larger hle hend]
    exact hok

def stoppedText : Source := .ofString "é\nb{c}"

/-- `stoppedText` as a tree: a call with a receiver and a block alone, and in the block a node that
lies deeper than two levels. -/
def stoppedTree : Node :=
  branch "program" 0 7 []
    [leaf "identifier" 0 2 [],
     branch "call" 3 7 []
      [leaf "identifier" 3 4 ["receiver"],
       branch "block" 4 7 ["block"] [leaf "identifier" 5 6 []]]]

set_option maxRecDepth 4000 in
/-- The call comes before the node that lies too deep, so it is the one reported; a walk that ends
well within nine levels does so within more. -/
theorem nameless_call_reported :
    stoppedTree.WellFormed stoppedText ∧ shortTree.WellFormed shortText ∧
    (Extraction.ofSteps (stoppedTree.asMet.walk stoppedText .passThrough 2)).result =
      .error (.walk ⟨.namelessCall, 2⟩) ∧
    ∀ larger, 9 ≤ larger →
      (Extraction.ofSteps (shortTree.asMet.walk shortText .passThrough larger)).result =
        .ok shortReferences := by
  have hstopped : stoppedTree.WellFormed stoppedText := by decide +kernel
  have hshort : shortTree.WellFormed shortText := by decide +kernel
  refine ⟨hstopped, hshort, ?_, ?_⟩
  · have hbefore : ∀ q ∈ stoppedTree.positions, Before q [1] → q = [] ∨ q = [0] := by decide
    refine ((walk_fails_iff hstopped .passThrough 2).2.1 _).mpr
      ⟨[1], _, .namelessCall, rfl, ⟨_, rfl, .inr ⟨by decide, rfl, ⟨rfl, rfl⟩, rfl⟩⟩, ?_, rfl⟩
    rintro q hq other ⟨node, hnode, hstop⟩
    rcases hbefore q ((mem_positions _ q).mpr (by simp [hnode])) hq with rfl | rfl
    all_goals
      cases hnode
      rcases hstop with ⟨hd, -⟩ | ⟨-, hk, -⟩
      · exact absurd hd (by decide)
      · exact absurd hk (by decide)
  · intro larger hle
    exact (walk_fails_iff hshort .passThrough 9).2.2.1 larger _ hle shortTree_walk

def brokenChainText : Source := .ofString "a\n# c\n.b"

/-- The tree of `brokenChainText`: a call of `b`, with a comment between its receiver and its
name. -/
def brokenChainTree : Node :=
  branch "program" 0 8 []
    [branch "call" 0 8 []
      [leaf "identifier" 0 1 ["receiver"], leaf "comment" 2 5 [], token "." 6 7,
       leaf "identifier" 7 8 ["method"]]]

/-- The only call of the tree has a name, and a traversal is stopped within the limit. -/
theorem comment_met_as_call :
    brokenChainTree.WellFormed brokenChainText ∧
    (∀ node ∈ brokenChainTree.preorder, node.kind = node.ownKind) ∧
    (∀ p reason, ¬ brokenChainTree.StopsAt 9 p reason) ∧
    (Extraction.ofSteps (brokenChainTree.asMet.walk brokenChainText .passThrough 9)).result =
      .error (.walk ⟨.namelessCall, 2⟩) := by
  have hnamed : ∀ node ∈ brokenChainTree.preorder, node.kind = "call" → ¬ node.Nameless := by
    decide
  have hshallow : ∀ p ∈ brokenChainTree.positions, p.length ≤ 9 := by decide
  refine ⟨by decide +kernel, by decide, ?_, by rfl⟩
  rintro p reason ⟨node, hnode, ⟨hdeep, -⟩ | ⟨-, hkind, hnameless, -⟩⟩
  · have hlevel := hshallow p ((mem_positions _ p).mpr (by simp [hnode]))
    omega
  · exact hnamed node (mem_preorder.mpr ⟨p, hnode⟩) hkind hnameless

end Node
end CallSift
