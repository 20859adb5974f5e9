import CallSift.Proofs.Walk.Candidates

/-!
# Variables in patterns

An identifier in a pattern is the variable that a match binds. The walk binds it
in the branches of a `case` and in arrays, alternatives, keywords and after `=>`
inside a pattern, but takes it for a read at the top of a pattern in one line
and in parentheses.

* `IsPattern`: the places where an identifier is a pattern by itself.
* `under_pattern`: which of them bind it.
* `pattern_variables`: what follows for the identifier and for those after it.
* `matched_variable_reported`: the variable of a match in one line is reported.
-/
namespace CallSift.Node

open Position

/-- The kinds of nodes that list a pattern, or the name given to one, under a field. -/
def patternFields : List (String × String) :=
  [("in_clause", "pattern"), ("match_pattern", "pattern"), ("test_pattern", "pattern"),
   ("as_pattern", "name")]

/-- The kinds of patterns that are made of patterns. -/
def compoundPatterns : List String :=
  ["array_pattern", "find_pattern", "alternative_pattern", "keyword_pattern",
   "parenthesized_pattern"]

/-- The kinds of nodes below which a pattern is taken for a read. -/
def unboundPatterns : List String := ["match_pattern", "test_pattern", "parenthesized_pattern"]

/-- Below a parent of the given kind the node is a pattern or the name given to one. -/
def IsPattern (parent : String) (node : Node) : Prop :=
  (∃ field, (parent, field) ∈ patternFields ∧ node.isField field) ∨ parent ∈ compoundPatterns

/-- The role of a pattern depends on the kind of its parent alone. -/
theorem under_pattern {parent : String} {node : Node} (h : IsPattern parent node) :
    Role.under parent node = if parent ∈ unboundPatterns then .read else .binding := by
  rcases h with ⟨field, hmem, hfield⟩ | hmem
  · simp only [patternFields, List.mem_cons, List.not_mem_nil, or_false, Prod.mk.injEq] at hmem
    rcases hmem with ⟨rfl, rfl⟩ | ⟨rfl, rfl⟩ | ⟨rfl, rfl⟩ | ⟨rfl, rfl⟩ <;>
      simp [Role.under, Role.fieldBinders, Role.binders, unboundPatterns, hfield]
  · simp only [compoundPatterns, List.mem_cons, List.not_mem_nil, or_false] at hmem
    rcases hmem with rfl | rfl | rfl | rfl | rfl <;>
      simp [Role.under, Role.fieldBinders, Role.binders, unboundPatterns]

/-- What a pattern at a position stands for. -/
theorem roleAt?_pattern {root parent node : Node} {v : Position}
    (hparent : root.parentAt? v = some parent) (hv : root.nodeAt? v = some node)
    (hpattern : IsPattern parent.ownKind node) :
    root.roleAt? v = some (if parent.ownKind ∈ unboundPatterns then .read else .binding) := by
  simp [roleAt?, hv, hparent, Role.of, under_pattern hpattern]

/-- An identifier has no candidate when one before it binds its name in a frame in sight. -/
theorem candidateAt_of_bound {source : Source} {filter : Filter} {limit : Nat} {root node : Node}
    {refs : List Reference} {u v : Position} {name : String}
    (h : (Extraction.ofSteps (root.walk source filter limit)).result = .ok refs)
    (hu : root.nodeAt? u = some node) (hk : node.kind = "identifier")
    (ht : node.text? source = some name) (hvu : Before v u) (hv : root.BindsAt source v name)
    (hseen : root.Visible u (root.frameAt v)) : root.candidateAt source u = none := by
  obtain ⟨text, ht', -, hnone⟩ := identifier_candidate h hu hk
  obtain rfl : name = text := by rw [ht] at ht'; exact Option.some.inj ht'
  exact hnone.mpr fun _ => ⟨v, hvu, hv, hseen⟩

/-- **Variables in patterns.** An identifier that is a pattern and stands below none of the
`unboundPatterns` binds its name: it gives no reference, and neither does any identifier of that
name behind it that has its frame in sight. Below one of them it binds nothing, and it is
reported itself unless a local variable of its name is in sight. -/
theorem pattern_variables {source : Source} {filter : Filter} {limit : Nat} {root : Node}
    {refs : List Reference}
    (h : (Extraction.ofSteps (root.walk source filter limit)).result = .ok refs) :
    refs = (root.positions.filterMap (root.candidateAt source)).filter filter.accepts ∧
    ∀ v parent node, root.parentAt? v = some parent → root.nodeAt? v = some node →
      node.kind = "identifier" → IsPattern parent.ownKind node →
      ∃ name, node.text? source = some name ∧
        (parent.ownKind ∉ unboundPatterns →
          root.candidateAt source v = none ∧
          ∀ u later, root.nodeAt? u = some later → later.kind = "identifier" →
            later.text? source = some name → Before v u → root.Visible u (root.frameAt v) →
            root.candidateAt source u = none) ∧
        (parent.ownKind ∈ unboundPatterns →
          (∀ bound, ¬ root.BindsAt source v bound) ∧
          (root.candidateAt source v = some (node.bareReference source name) ↔
            ¬ root.Local source v name) ∧
          (root.candidateAt source v = none ↔ root.Local source v name)) := by
  refine ⟨(walk_candidates h).2, ?_⟩
  intro v parent node hparent hv hk hpattern
  have hrole := roleAt?_pattern hparent hv hpattern
  obtain ⟨name, ht, hbare, hnone⟩ := identifier_candidate h hv hk
  refine ⟨name, ht, ?_, ?_⟩
  · intro hbound
    rw [if_neg hbound] at hrole
    have hbinds : root.BindsAt source v name := ⟨node, hv, hk, hrole, ht⟩
    refine ⟨hnone.mpr (by simp [hrole]), ?_⟩
    intro u later hu hku htu hvu hseen
    exact candidateAt_of_bound h hu hku htu hvu hbinds hseen
  · intro hunbound
    rw [if_pos hunbound] at hrole
    refine ⟨?_, by simpa [hrole] using hbare, by simpa [hrole] using hnone⟩
    rintro bound ⟨-, -, -, hbinding, -⟩
    rw [hrole] at hbinding; cases hbinding

def caseText : Source := .ofString "case w; in v then v end"

/-- The tree of `caseText`. -/
def caseTree : Node :=
  branch "program" 0 23 []
    [branch "case_match" 0 23 []
      [token "case" 0 4, leaf "identifier" 5 6 ["value"], token ";" 6 7,
       branch "in_clause" 8 19 ["clauses"]
        [token "in" 8 10, leaf "identifier" 11 12 ["pattern"],
         branch "then" 13 19 ["body"] [token "then" 13 17, leaf "identifier" 18 19 []]],
       token "end" 20 23]]

theorem caseTree_walk :
    (Extraction.ofSteps (caseTree.walk caseText .passThrough 9)).result =
      .ok [⟨.call, "w", none, none, ⟨1, 5, 1, 6⟩, "w"⟩] := by
  -- one pass over the positions evaluates faster than the recursion with its frames
  rw [walk_eq_sweep]
  rfl

/-- In the branch of a `case` the variable is bound, and so is the identifier behind it. -/
theorem branch_variable_binds :
    caseTree.candidateAt caseText [1, 3, 0] = none ∧
      caseTree.candidateAt caseText [1, 2, 3, 0] = none := by
  obtain ⟨-, hall⟩ := pattern_variables caseTree_walk
  obtain ⟨name, ht, hbound, -⟩ :=
    hall [1, 3, 0] _ _ rfl rfl rfl (Or.inl ⟨"pattern", by decide, rfl⟩)
  have hname : some "v" = some name := by rw [← ht]; rfl
  cases hname
  obtain ⟨hitself, hlater⟩ := hbound (by decide)
  exact ⟨hitself, hlater [1, 2, 3, 0] _ rfl rfl rfl (by decide) .own⟩

def matchText : Source := .ofString "w => v; v"

/-- The tree of `matchText`. -/
def matchTree : Node :=
  branch "program" 0 9 []
    [branch "match_pattern" 0 6 []
      [leaf "identifier" 0 1 ["value"], token "=>" 2 4, leaf "identifier" 5 6 ["pattern"]],
     token ";" 6 7, leaf "identifier" 8 9 []]

/-- The variable of a match in one line is reported, and so is its use behind the match. -/
theorem matched_variable_reported :
    IsPattern "match_pattern" (leaf "identifier" 5 6 ["pattern"]) ∧
    matchTree.parentAt? [2, 0] = matchTree.nodeAt? [0] ∧
    matchTree.nodeAt? [2, 0] = some (leaf "identifier" 5 6 ["pattern"]) ∧
    matchTree.Visible [2] (matchTree.frameAt [2, 0]) ∧
    (Extraction.ofSteps (matchTree.walk matchText .passThrough 9)).result =
      .ok [⟨.call, "w", none, none, ⟨1, 0, 1, 1⟩, "w"⟩, ⟨.call, "v", none, none, ⟨1, 5, 1, 6⟩, "v"⟩,
        ⟨.call, "v", none, none, ⟨1, 8, 1, 9⟩, "v"⟩] := by
  refine ⟨Or.inl ⟨"pattern", by decide, rfl⟩, rfl, rfl, .own, rfl⟩

end CallSift.Node
