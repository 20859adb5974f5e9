import CallSift.Proofs.Extraction
import CallSift.Proofs.Walk.Sweep

/-!
# The references of a source, node by node

Without an allow-list, the references that a walk returns are the candidates of
the nodes, in pre-order: every node gives its own one or nothing (`candidateAt`).

* `walk_references`: the list of references is that list.
* `identifier_reported_iff`: an identifier that is read is reported exactly when
  no local variable of its name is in sight, and any other never.
* `references_in_preorder`: which nodes give a candidate, and in which order.
-/
namespace CallSift

namespace Node

open Position

/-- The reference that the node at a position stands for by itself, if any. -/
def candidateAt (source : Source) (root : Node) (p : Position) : Option Reference :=
  (root.nodeAt? p).bind fun node =>
    if node.kind = "call" then (node.callReference source (root.parentAt? p)).toOption.join
    else if node.kind = "subshell" then (node.commandReference source).toOption
    else if node.kind = "identifier" ∧ root.roleAt? p = some .read then
      (node.text? source).bind fun name =>
        if (root.framesAt source p).binds name then none
        else some (node.bareReference source name)
    else none

/-- The frames at a position bind exactly the local variables in sight there. -/
theorem binds_framesAt {source : Source} {root : Node} {u : Position} {name : String} :
    (root.framesAt source u).binds name = true ↔ root.Local source u name := by
  unfold framesAt Local
  rw [binds_stack]
  constructor
  · rintro ⟨f, hf, hname⟩
    obtain ⟨v, hv, rfl, hb⟩ := mem_namesIn.mp hname
    exact ⟨v, (mem_earlier.mp hv).2, bound?_eq_some.mp hb, hf⟩
  · rintro ⟨v, hv, hb, hf⟩
    have hseen : v ∈ root.earlier u := by
      obtain ⟨node, hnode, -⟩ := hb
      exact mem_earlier.mpr ⟨by simp [hnode], hv⟩
    exact ⟨root.frameAt v, hf, mem_namesIn.mpr ⟨v, hseen, rfl, bound?_eq_some.mpr hb⟩⟩

/-- An identifier opens no scope. -/
theorem enterScope_identifier {node : Node} (hk : node.kind = "identifier") (scopes : Scopes) :
    enterScope node.info scopes = scopes := by
  have : ScopeKind.of? node.info.kind = none := by
    rw [show node.info.kind = "identifier" from hk]; rfl
  simp [enterScope, this]

/-- A position at which the walk is not stopped gives its candidate and no other reference. -/
theorem stepAt_references {source : Source} {limit : Nat} {root : Node} {p : Position}
    {found : List Finding} (h : root.stepAt source .passThrough limit p = .ok found) :
    found.filterMap Finding.reference? = (root.candidateAt source p).toList := by
  unfold candidateAt
  cases hp : root.nodeAt? p with
  | none => simp only [stepAt, hp] at h; cases h; rfl
  | some node =>
    obtain ⟨-, steps, scopes, hv, hend, rfl⟩ := stepAt_ok hp h
    have hrole : root.roleAt? p = some (Role.of (root.parentAt? p) node) := by simp [roleAt?, hp]
    cases hv with
    | call hk hc =>
      simp [hk, hc, Steps.offer_passThrough, Steps.found, Finding.reference?, Except.toOption]
    | unnamed hk hc => simp [hk, hc, Steps.done, Except.toOption]
    | command hk hc =>
      simp [hk, hc, Steps.offer_passThrough, Steps.found, Finding.reference?, Except.toOption]
    | binding hk ht hr => simp [hk, hrole, hr, Steps.done]
    | attached hk ht hr => rcases hr with hr | hr <;> simp [hk, hrole, hr, Steps.done]
    | known hk ht hr hb =>
      rw [enterScope_identifier hk] at hb
      simp [hk, hrole, hr, ht, hb, Steps.done]
    | bare hk ht hr hb =>
      rw [enterScope_identifier hk] at hb
      simp [hk, hrole, hr, ht, hb, Steps.offer_passThrough, Steps.found, Finding.reference?]
    | other h1 h2 h3 hnone =>
      simp only [Option.bind_some, h1, h2, h3, if_false, false_and]
      exact List.filterMap_eq_nil_iff.mpr hnone
    | stopped _ => cases hend

/-- A walk that ends well is stopped at no position, and returns the candidates of
all positions. -/
theorem walk_references {source : Source} {limit : Nat} {root : Node} {refs : List Reference}
    (h : (Extraction.ofSteps (root.walk source .passThrough limit)).result = .ok refs) :
    (∀ p ∈ root.positions, ∃ found, root.stepAt source .passThrough limit p = .ok found) ∧
      refs = root.positions.filterMap (root.candidateAt source) := by
  obtain ⟨scopes, hend, rfl⟩ := Extraction.ofSteps_ok h
  rw [walk_eq_sweep] at hend ⊢
  obtain ⟨hok, hfound⟩ := sweep_ok hend
  refine ⟨hok, ?_⟩
  rw [hfound, List.filterMap_flatMap]
  generalize root.positions = ps at hok
  -- the findings of a position are its candidate and what is no reference
  induction ps with
  | nil => rfl
  | cons p ps ih =>
    obtain ⟨found, hp⟩ := hok p List.mem_cons_self
    have := stepAt_references hp
    rw [List.flatMap_cons, ih (fun q hq => hok q (List.mem_cons_of_mem p hq)), hp,
      List.filterMap_cons]
    simp only [Except.toOption, Option.getD_some, this]
    cases root.candidateAt source p <;> rfl

/-! ## Which nodes give a candidate -/

/-- At a position where the walk is not stopped, what has to be read can be read. -/
theorem stepAt_readable {source : Source} {filter : Filter} {limit : Nat} {root node : Node}
    {p : Position} {found : List Finding} (hp : root.nodeAt? p = some node)
    (h : root.stepAt source filter limit p = .ok found) :
    (node.kind = "call" → ∃ reference,
      node.callReference source (root.parentAt? p) = .ok reference) ∧
    (node.kind = "subshell" → ∃ reference, node.commandReference source = .ok reference) ∧
    (node.kind = "identifier" → ∃ name, node.text? source = some name) := by
  obtain ⟨-, steps, scopes, hv, hend, -⟩ := stepAt_ok hp h
  cases hv with
  | call hk hc | unnamed hk hc =>
    exact ⟨fun _ => ⟨_, hc⟩, by simp [hk], by simp [hk]⟩
  | command hk hc => exact ⟨by simp [hk], fun _ => ⟨_, hc⟩, by simp [hk]⟩
  | binding hk ht _ | attached hk ht _ | known hk ht _ _ | bare hk ht _ _ =>
    exact ⟨by simp [hk], by simp [hk], fun _ => ⟨_, ht⟩⟩
  | other h1 h2 h3 _ => exact ⟨(absurd · h1), (absurd · h2), (absurd · h3)⟩
  | stopped _ => cases hend

theorem candidateAt_call {source : Source} {root node : Node} {p : Position}
    {reference : Option Reference} (hp : root.nodeAt? p = some node) (hk : node.kind = "call")
    (hc : node.callReference source (root.parentAt? p) = .ok reference) :
    root.candidateAt source p = reference := by
  simp [candidateAt, hp, hk, hc, Except.toOption]

theorem candidateAt_command {source : Source} {root node : Node} {p : Position}
    {reference : Reference} (hp : root.nodeAt? p = some node) (hk : node.kind = "subshell")
    (hc : node.commandReference source = .ok reference) :
    root.candidateAt source p = some reference := by
  simp [candidateAt, hp, hk, hc, Except.toOption]

theorem candidateAt_identifier {source : Source} {root node : Node} {p : Position} {name : String}
    (hp : root.nodeAt? p = some node) (hk : node.kind = "identifier")
    (ht : node.text? source = some name) :
    (root.roleAt? p ≠ some .read → root.candidateAt source p = none) ∧
    (root.Local source p name → root.candidateAt source p = none) ∧
    (root.roleAt? p = some .read → ¬ root.Local source p name →
      root.candidateAt source p = some (node.bareReference source name)) := by
  unfold candidateAt
  simp only [hp, Option.bind_some, hk, ht, ← binds_framesAt]
  refine ⟨?_, ?_, ?_⟩
  · intro hr; simp [hr]
  · intro hl; simp [hl]
  · intro hr hl; simp [hr, hl]

theorem candidateAt_other {source : Source} {root node : Node} {p : Position}
    (hp : root.nodeAt? p = some node) (h1 : node.kind ≠ "call") (h2 : node.kind ≠ "subshell")
    (h3 : node.kind ≠ "identifier") : root.candidateAt source p = none := by
  simp [candidateAt, hp, h1, h2, h3]

/-- A candidate comes about in one of three ways, by the kind of its node. -/
theorem candidateAt_cases {source : Source} {root : Node} {p : Position} {reference : Reference}
    (h : root.candidateAt source p = some reference) : ∃ node, root.nodeAt? p = some node ∧
      ((node.kind = "call" ∧
          node.callReference source (root.parentAt? p) = .ok (some reference)) ∨
        (node.kind = "subshell" ∧ node.commandReference source = .ok reference) ∨
        (node.kind = "identifier" ∧ ∃ name, node.text? source = some name ∧
          reference = node.bareReference source name)) := by
  unfold candidateAt at h
  obtain ⟨node, hp, h⟩ := Option.bind_eq_some_iff.mp h
  refine ⟨node, hp, ?_⟩
  split at h
  · next hk =>
    refine .inl ⟨hk, ?_⟩
    cases hc : node.callReference source (root.parentAt? p) with
    | error fault => simp [hc, Except.toOption] at h
    | ok found => simpa [hc, Except.toOption] using h
  split at h
  · next hk =>
    refine .inr (.inl ⟨hk, ?_⟩)
    cases hc : node.commandReference source with
    | error fault => simp [hc, Except.toOption] at h
    | ok found => simpa [hc, Except.toOption] using h
  split at h
  · next hk =>
    obtain ⟨name, htext, hname⟩ := Option.bind_eq_some_iff.mp h
    split at hname
    · cases hname
    · exact .inr (.inr ⟨hk.1, name, htext, (Option.some.inj hname).symm⟩)
  · cases h

/-- A walk with a filter that ends well is stopped at no position, and returns those
candidates that the filter accepts. -/
theorem walk_candidates {source : Source} {filter : Filter} {limit : Nat} {root : Node}
    {refs : List Reference}
    (h : (Extraction.ofSteps (root.walk source filter limit)).result = .ok refs) :
    (∀ p ∈ root.positions, ∃ found, root.stepAt source .passThrough limit p = .ok found) ∧
      refs = (root.positions.filterMap (root.candidateAt source)).filter filter.accepts := by
  rw [walk_choose, Extraction.ofSteps_choose] at h
  obtain ⟨all, hall, rfl⟩ := map_eq_ok.mp h
  obtain ⟨hok, rfl⟩ := walk_references hall
  exact ⟨hok, rfl⟩

/-- In a walk that ends well an identifier has a text, and its candidate is decided by its
role and by the local variables in sight. -/
theorem identifier_candidate {source : Source} {filter : Filter} {limit : Nat} {root node : Node}
    {refs : List Reference} {u : Position}
    (h : (Extraction.ofSteps (root.walk source filter limit)).result = .ok refs)
    (hu : root.nodeAt? u = some node) (hk : node.kind = "identifier") :
    ∃ name, node.text? source = some name ∧
      (root.candidateAt source u = some (node.bareReference source name) ↔
        root.roleAt? u = some .read ∧ ¬ root.Local source u name) ∧
      (root.candidateAt source u = none ↔
        (root.roleAt? u = some .read → root.Local source u name)) := by
  obtain ⟨found, hstep⟩ := (walk_candidates h).1 u ((mem_positions root u).mpr (by simp [hu]))
  obtain ⟨name, ht⟩ := (stepAt_readable hu hstep).2.2 hk
  obtain ⟨hrole, hlocal, hbare⟩ := candidateAt_identifier hu hk ht
  refine ⟨name, ht, ?_⟩
  by_cases hr : root.roleAt? u = some .read
  · by_cases hl : root.Local source u name
    · simp [hl, hlocal hl]
    · simp [hr, hl, hbare hr hl]
  · simp [hr, hrole hr]

/-- **Local variables.** The references are the candidates of the positions, and
an identifier's candidate is decided by its role and by the names bound before
it in the frames in sight: an identifier that is read is reported, as a reference without
receiver and arguments, exactly when no such name is its own; any other never is. -/
theorem identifier_reported_iff {source : Source} {limit : Nat} {root : Node}
    {refs : List Reference}
    (h : (Extraction.ofSteps (root.walk source .passThrough limit)).result = .ok refs) :
    refs = root.positions.filterMap (root.candidateAt source) ∧
    ∀ u node, root.nodeAt? u = some node → node.kind = "identifier" →
      ∃ name, node.text? source = some name ∧
        (root.roleAt? u = some .read →
          (root.candidateAt source u = some (node.bareReference source name) ↔
            ¬ ∃ v, Before v u ∧ root.BindsAt source v name ∧ root.Visible u (root.frameAt v)) ∧
          (root.candidateAt source u = none ↔
            ∃ v, Before v u ∧ root.BindsAt source v name ∧ root.Visible u (root.frameAt v))) ∧
        (root.roleAt? u ≠ some .read → root.candidateAt source u = none) := by
  obtain ⟨hok, hrefs⟩ := walk_references h
  refine ⟨hrefs, ?_⟩
  intro u node hu hk
  obtain ⟨found, hstep⟩ := hok u ((mem_positions root u).mpr (by simp [hu]))
  obtain ⟨name, ht⟩ := (stepAt_readable hu hstep).2.2 hk
  obtain ⟨hrole, hlocal, hbare⟩ := candidateAt_identifier hu hk ht
  refine ⟨name, ht, ?_, hrole⟩
  intro hr
  change (_ ↔ ¬ root.Local source u name) ∧ (_ ↔ root.Local source u name)
  by_cases hl : root.Local source u name
  · simp [hl, hlocal hl]
  · simp [hl, hbare hr hl]

/-- A named node without errors. -/
def branch (kind : String) (start stop : Nat) (fields : List String) (children : List Node) :
    Node :=
  mk ⟨kind, kind, start, stop, true, false, false, false, fields⟩ children

def leaf (kind : String) (start stop : Nat) (fields : List String) : Node :=
  branch kind start stop fields []

/-- A keyword or a sign. -/
def token (kind : String) (start stop : Nat) : Node :=
  mk ⟨kind, kind, start, stop, false, false, false, false, []⟩ []

def shortText : Source := .ofString "π=1\n{π};def m;f(π)`l`"

/-- `shortText` as a tree: an assignment, a block that reads it, and a method that cannot. -/
def shortTree : Node :=
  branch "program" 0 24 []
    [branch "assignment" 0 4 [] [leaf "identifier" 0 2 ["left"], leaf "integer" 3 4 ["right"]],
     branch "block" 5 9 [] [leaf "identifier" 6 8 []],
     branch "method" 10 24 []
      [leaf "identifier" 14 15 ["name"],
       branch "call" 16 21 []
        [leaf "identifier" 16 17 ["method"],
         branch "argument_list" 17 21 ["arguments"] [leaf "identifier" 18 20 []]],
       leaf "subshell" 21 24 []]]

def shortReferences : List Reference :=
  [⟨.call, "f", none, some ["π"], ⟨2, 10, 2, 14⟩, "f(π)"⟩,
   ⟨.call, "π", none, none, ⟨2, 12, 2, 13⟩, "π"⟩,
   ⟨.inlineExecution, commandName, none, none, ⟨2, 14, 2, 17⟩, "`l`"⟩]

set_option maxRecDepth 4000 in
theorem shortTree_walk :
    (Extraction.ofSteps (shortTree.walk shortText .passThrough 9)).result =
      .ok shortReferences := by
  rfl

/-- The block sees the variable that is bound around it, and the method does not. -/
theorem block_local_method_reported :
    (Extraction.ofSteps (shortTree.walk shortText .passThrough 9)).result = .ok shortReferences ∧
    (∃ v, Before v [0, 1] ∧ shortTree.BindsAt shortText v "π" ∧
      shortTree.Visible [0, 1] (shortTree.frameAt v)) ∧
    ¬ ∃ v, Before v [0, 1, 1, 2] ∧ shortTree.BindsAt shortText v "π" ∧
      shortTree.Visible [0, 1, 1, 2] (shortTree.frameAt v) := by
  obtain ⟨-, hall⟩ := identifier_reported_iff shortTree_walk
  refine ⟨shortTree_walk, ?_, ?_⟩
  · obtain ⟨name, ht, hread, -⟩ := hall [0, 1] (leaf "identifier" 6 8 []) rfl rfl
    have hname : some "π" = some name := by rw [← ht]; rfl
    cases hname
    exact (hread (by rfl)).2.mp (by rfl)
  · obtain ⟨name, ht, hread, -⟩ := hall [0, 1, 1, 2] (leaf "identifier" 18 20 []) rfl rfl
    have hname : some "π" = some name := by rw [← ht]; rfl
    cases hname
    exact (hread (by rfl)).1.mp (by rfl)

/-- The nodes that give a candidate, and of which form it is. -/
theorem candidateAt_shape {source : Source} {limit : Nat} {root node : Node} {p : Position}
    {found : List Finding} (hp : root.nodeAt? p = some node)
    (h : root.stepAt source .passThrough limit p = .ok found) :
    ((∃ r, root.candidateAt source p = some r ∧ r.shape = .inlineExecution) ↔
      node.kind = "subshell") ∧
    ((∃ r, root.candidateAt source p = some r ∧ r.shape = .call) ↔
      (node.kind = "call" ∧ ¬ node.CallsParent) ∨
      (node.kind = "identifier" ∧ root.roleAt? p = some .read ∧
        ∀ name, node.text? source = some name → ¬ root.Local source p name)) := by
  obtain ⟨hcall, hcommand, hident⟩ := stepAt_readable hp h
  by_cases h1 : node.kind = "call"
  · obtain ⟨reference, hc⟩ := hcall h1
    rw [candidateAt_call hp h1 hc]
    cases reference with
    | none => simp [h1, callReference_none.mp hc]
    | some r =>
      have hn : ¬ node.CallsParent := by
        intro hn
        rw [callReference_none.mpr hn] at hc; cases hc
      simp [h1, hn, callReference_shape hc]
  by_cases h2 : node.kind = "subshell"
  · obtain ⟨r, hc⟩ := hcommand h2
    rw [candidateAt_command hp h2 hc]
    simp [h2, commandReference_shape hc]
  by_cases h3 : node.kind = "identifier"
  · obtain ⟨name, ht⟩ := hident h3
    obtain ⟨hrole, hlocal, hbare⟩ := candidateAt_identifier hp h3 ht
    by_cases hr : root.roleAt? p = some .read
    · by_cases hl : root.Local source p name
      · simp [h3, ht, hl, hlocal hl]
      · simp [h3, ht, hr, hl, hbare hr hl, bareReference]
    · simp [h3, hr, hrole hr]
  · rw [candidateAt_other hp h1 h2 h3]
    simp [h1, h2, h3]

/-- **Nothing lost, nothing twice, in pre-order.** The references are the
candidates of the nodes in pre-order. A call that has a name of its own gives a call, a
backtick literal an inline execution, an identifier that is read and no local variable a call;
no other node gives anything. Of two such nodes the one that comes first in
pre-order, as an enclosing node does, is reported first. -/
theorem references_in_preorder {source : Source} {limit : Nat} {root : Node}
    {refs : List Reference}
    (h : (Extraction.ofSteps (root.walk source .passThrough limit)).result = .ok refs) :
    refs = root.positions.filterMap (root.candidateAt source) ∧
    root.positions.filterMap root.nodeAt? = root.preorder ∧
    root.positions.Pairwise Before ∧
    (∀ p, p ∈ root.positions ↔ ∃ node, root.nodeAt? p = some node) ∧
    (∀ p node, root.nodeAt? p = some node →
      ((∃ r, root.candidateAt source p = some r ∧ r.shape = .inlineExecution) ↔
        node.kind = "subshell") ∧
      ((∃ r, root.candidateAt source p = some r ∧ r.shape = .call) ↔
        (node.kind = "call" ∧
          ¬ ∃ method, node.child? "method" = some method ∧ method.kind = "super") ∨
        (node.kind = "identifier" ∧ root.roleAt? p = some .read ∧
          ∀ name, node.text? source = some name → ¬ root.Local source p name))) ∧
    (∀ p q r s, Before p q → root.candidateAt source p = some r →
      root.candidateAt source q = some s → [r, s].Sublist refs) := by
  obtain ⟨hok, hrefs⟩ := walk_references h
  refine ⟨hrefs, positions_nodes root, positions_pairwise root, ?_, ?_, ?_⟩
  · intro p; rw [mem_positions, Option.isSome_iff_exists]
  · intro p node hp
    obtain ⟨found, hstep⟩ := hok p ((mem_positions root p).mpr (by simp [hp]))
    exact candidateAt_shape hp hstep
  · intro p q r s hpq hr hs
    have hmem : ∀ {w t}, root.candidateAt source w = some t → w ∈ root.positions := by
      intro w t hw
      rw [mem_positions]
      unfold candidateAt at hw
      cases hn : root.nodeAt? w with
      | none => simp [hn] at hw
      | some node => rfl
    -- what comes before `q` is the part of the list on its left, so `p` lies there
    obtain ⟨left, right, hsplit⟩ := List.append_of_mem (hmem hs)
    have hp : p ∈ left := (mem_left hsplit p).mpr ⟨hmem hr, hpq⟩
    have hsub : [p, q].Sublist root.positions := by
      rw [hsplit]
      exact (List.singleton_sublist.mpr hp).append (List.singleton_sublist.mpr List.mem_cons_self)
    have := hsub.filterMap (root.candidateAt source)
    rw [hrefs]
    simpa [hr, hs] using this

/-- The call in the method comes first, then its argument, then the literal behind it. -/
theorem short_in_preorder :
    (Extraction.ofSteps (shortTree.walk shortText .passThrough 9)).result = .ok shortReferences ∧
    shortReferences = shortTree.positions.filterMap (shortTree.candidateAt shortText) ∧
    (∃ r, shortTree.candidateAt shortText [1, 2] = some r ∧ r.shape = .call) ∧
    ∃ r, shortTree.candidateAt shortText [2, 2] = some r ∧ r.shape = .inlineExecution := by
  obtain ⟨hrefs, -, -, -, hshape, -⟩ := references_in_preorder shortTree_walk
  refine ⟨shortTree_walk, hrefs, ?_, ?_⟩
  · refine (hshape [1, 2] _ rfl).2.mpr (Or.inl ⟨rfl, ?_⟩)
    rintro ⟨method, hmethod, hkind⟩
    have hname : some (leaf "identifier" 16 17 ["method"]) = some method := by rw [← hmethod]; rfl
    cases hname
    exact absurd hkind (by decide)
  · exact (hshape [2, 2] _ rfl).1.mpr rfl

end Node
end CallSift
