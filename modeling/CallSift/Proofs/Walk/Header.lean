import CallSift.Proofs.Walk.Candidates

/-!
# Headers of definitions

The walk opens the frame of a definition before it visits any of its children.
So the expressions in its header, which run in the scope around it, are read in
the empty frame of its body: a local variable of the surroundings is reported
there as a call.

* `InHeader`: the positions in the header whose frame is that of the definition.
* `header_reads_own_frame`: what an identifier there is taken for.
* `superclass_local_reported`: a superclass that is a local variable is reported.
-/
namespace CallSift.Node

open Position

/-- The kinds of definitions whose header holds an expression, with its field. -/
def headerFields : List (String × String) :=
  [("class", "superclass"), ("singleton_class", "value"), ("singleton_method", "object")]

/-- `u` is or lies in the expression in the header of the definition at `d`. -/
structure InHeader (root : Node) (d u : Position) : Prop where
  below : ∃ definition header i field, root.nodeAt? d = some definition ∧
    root.nodeAt? (i :: d) = some header ∧ (definition.kind, field) ∈ headerFields ∧
    header.isField field ∧ (i :: d) <:+ u
  /-- No scope is opened in between. -/
  frame : root.frameAt u = some d

/-- A definition with an expression in its header opens a scope that hides all others. -/
theorem InHeader.opens {root : Node} {d u : Position} (h : root.InHeader d u) :
    root.opens? d = some .fresh := by
  obtain ⟨definition, -, -, field, hd, -, hfield, -⟩ := h.below
  have hkind : definition.kind ∈ headerFields.map Prod.fst := List.mem_map_of_mem hfield
  have hfresh : ∀ kind ∈ headerFields.map Prod.fst, ScopeKind.of? kind = some .fresh := by decide
  simp [opens?, hd, hfresh _ hkind]

/-- From inside a scope that hides all others only its own frame is in sight. -/
theorem visible_fresh {root : Node} {d u : Position} (hu : root.frameAt u = some d)
    (hd : root.opens? d = some .fresh) {f : Option Position} :
    root.Visible u f ↔ f = some d := by
  rw [visible_iff, hu]
  constructor
  · rintro (h | ⟨q, hq, hk, -⟩)
    · exact h
    · cases hq; rw [hd] at hk; cases hk
  · exact Or.inl

/-- **Headers are read in the frame of the definition.** An identifier in the header of a
class, a singleton class or a singleton method that is read gives no reference exactly
when the definition itself binds its name before it. What is bound in front of the definition
never counts, a local variable that is in sight there included. -/
theorem header_reads_own_frame {source : Source} {filter : Filter} {limit : Nat} {root : Node}
    {refs : List Reference}
    (h : (Extraction.ofSteps (root.walk source filter limit)).result = .ok refs) :
    refs = (root.positions.filterMap (root.candidateAt source)).filter filter.accepts ∧
    ∀ d u node, root.InHeader d u → root.nodeAt? u = some node → node.kind = "identifier" →
      (∀ v, root.frameAt v = some d → Before d v) ∧
      ∃ name, node.text? source = some name ∧
        (root.candidateAt source u = some (node.bareReference source name) ↔
          root.roleAt? u = some .read ∧
            ¬ ∃ v, Before v u ∧ root.BindsAt source v name ∧ root.frameAt v = some d) ∧
        (root.candidateAt source u = none ↔
          (root.roleAt? u = some .read →
            ∃ v, Before v u ∧ root.BindsAt source v name ∧ root.frameAt v = some d)) := by
  refine ⟨(walk_candidates h).2, ?_⟩
  intro d u node hheader hu hk
  obtain ⟨name, ht, hcandidate⟩ := identifier_candidate h hu hk
  have hlocal : root.Local source u name ↔
      ∃ v, Before v u ∧ root.BindsAt source v name ∧ root.frameAt v = some d := by
    simp only [Local, visible_fresh hheader.frame hheader.opens]
  refine ⟨?_, name, ht, ?_⟩
  · intro v hv
    obtain ⟨habove, hlt⟩ := frameAt_above hv
    exact before_of_above habove (fun heq => by rw [heq] at hlt; omega)
  · rwa [hlocal] at hcandidate

def superclassText : Source := .ofString "v = 1; class A < v; end"

/-- The tree of `superclassText`. -/
def superclassTree : Node :=
  branch "program" 0 23 []
    [branch "assignment" 0 5 []
      [leaf "identifier" 0 1 ["left"], token "=" 2 3, leaf "integer" 4 5 ["right"]],
     token ";" 5 6,
     branch "class" 7 23 []
      [token "class" 7 12, leaf "constant" 13 14 ["name"],
       branch "superclass" 15 18 ["superclass"] [token "<" 15 16, leaf "identifier" 17 18 []],
       token ";" 18 19, token "end" 20 23]]

def superclassReference : Reference := ⟨.call, "v", none, none, ⟨1, 17, 1, 18⟩, "v"⟩

theorem superclassTree_walk :
    (Extraction.ofSteps (superclassTree.walk superclassText .passThrough 9)).result =
      .ok [superclassReference] := by
  rfl

theorem superclass_inHeader : superclassTree.InHeader [2] [1, 2, 2] :=
  ⟨⟨_, _, 2, "superclass", rfl, rfl, by decide, rfl, [1], rfl⟩, rfl⟩

/-- The superclass is read in the frame of the class, which binds nothing. -/
theorem superclass_reads_own_frame :
    (Extraction.ofSteps (superclassTree.walk superclassText .passThrough 9)).result =
      .ok [superclassReference] ∧
    ¬ ∃ v, Before v [1, 2, 2] ∧ superclassTree.BindsAt superclassText v "v" ∧
      superclassTree.frameAt v = some [2] := by
  obtain ⟨-, hall⟩ := header_reads_own_frame superclassTree_walk
  obtain ⟨-, name, ht, hread, -⟩ := hall [2] [1, 2, 2] _ superclass_inHeader rfl rfl
  have hname : some "v" = some name := by rw [← ht]; rfl
  cases hname
  exact ⟨superclassTree_walk, (hread.mp (by rfl)).2⟩

/-- A superclass that is a local variable in front of the class is reported as a call. -/
theorem superclass_local_reported :
    (Extraction.ofSteps (superclassTree.walk superclassText .passThrough 9)).result =
      .ok [superclassReference] ∧
    superclassTree.InHeader [2] [1, 2, 2] ∧
    superclassTree.Local superclassText [2] "v" ∧
    superclassTree.candidateAt superclassText [1, 2, 2] = some superclassReference := by
  refine ⟨superclassTree_walk, superclass_inHeader, ?_, rfl⟩
  exact ⟨[0, 0], by decide, ⟨_, rfl, rfl, rfl, rfl⟩, .own⟩

end CallSift.Node
