import CallSift.Proofs.Source.Extent
import CallSift.Proofs.Syntax.Faulty
import CallSift.Proofs.Walk.Candidates

/-!
# Trees that are rejected

A tree gives no references if a fault is found in it. The message complains of the first
fault and says where it begins.

* `first_fault_rejects`: which trees are rejected, and with which message.
* `aliased_error_accepted`: a tree with an error that is not.
* `fault_coordinates`: the line and the column of the message, and those of an extent.
* `column_behind_accent`: where the two columns differ.
-/
namespace CallSift

open Node Position

/-! ## The message -/

/-- What is wrong with a faulty node. -/
def Node.complaint (node : Node) : String :=
  if node.info.isMissing then s!"missing {node.kind}" else "syntax error"

/-- The message about a fault that begins in the given line and column. -/
def Node.complaintAt (node : Node) (line column : Nat) : String :=
  s!"{node.complaint} at line {line}, column {column}"

theorem SyntaxFault.message_ofNode (source : Source) (node : Node) :
    (SyntaxFault.ofNode source node).message =
      node.complaintAt (source.row node.start + 1) (source.byteColumn node.start) := by
  unfold SyntaxFault.ofNode SyntaxFault.message Node.complaintAt Node.complaint
  by_cases hmissing : node.info.isMissing = true <;> simp [hmissing]

namespace Extraction

variable {filter : Filter} {limit : Nat} {source : Source} {tree found : Node} {index : Nat}

/-- A tree without faults is walked. -/
theorem run_of_none (h : tree.firstFaulty? 0 = none) :
    run filter limit source tree = .ofSteps (tree.walk source filter limit) := by
  simp [run, SyntaxFault.of?, h]

theorem run_of_some (h : tree.firstFaulty? 0 = some (index, found)) :
    run filter limit source tree = ⟨[], .error (.malformed (.ofNode source found))⟩ := by
  simp [run, SyntaxFault.of?, h]

/-- A walk complains of no syntax. -/
theorem ofSteps_ne_malformed (steps : Steps) (fault : SyntaxFault) :
    (ofSteps steps).result ≠ .error (.malformed fault) := by
  unfold ofSteps
  split <;> simp

theorem run_malformed {fault : SyntaxFault}
    (h : (run filter limit source tree).result = .error (.malformed fault)) :
    ∃ index found, tree.firstFaulty? 0 = some (index, found) ∧ fault = .ofNode source found := by
  cases hfound : tree.firstFaulty? 0 with
  | none =>
    rw [run_of_none hfound] at h
    exact absurd h (ofSteps_ne_malformed _ _)
  | some entry =>
    obtain ⟨index, found⟩ := entry
    rw [run_of_some hfound] at h
    simp only [Except.error.injEq, ExtractionFault.malformed.injEq] at h
    exact ⟨index, found, rfl, h.symm⟩

/-- **Rejection.** Where the flags are right, a tree is rejected exactly if a traversal meets a
fault in it, and for the first fault in pre-order. A clear flag at the root means that there is
none; a set one means a rejection as long as no error is met as another kind. Otherwise the
references of a tree with such an error are answered, as if it had none. -/
theorem first_fault_rejects {tree : Node} (hflags : tree.FlagsExact) :
    (tree.asMet.firstFaulty? 0 = none ↔ ∀ p, ¬ tree.FaultAt p) ∧
    (∀ index found, tree.asMet.firstFaulty? 0 = some (index, found) →
      ∃ p, tree.positions[index]? = some p ∧ tree.asMet.nodeAt? p = some found ∧
        tree.FaultAt p ∧ ∀ q, Before q p → ¬ tree.FaultAt q) ∧
    (tree.info.hasError = false → tree.asMet.firstFaulty? 0 = none) ∧
    ((∀ p node, tree.nodeAt? p = some node → node.info.isError = true → tree.metAt? p = none) →
      (∀ p, tree.FaultAt p ↔ ∃ node, tree.nodeAt? p = some node ∧ node.info.isFaulty = true) ∧
      (tree.asMet.firstFaulty? 0 = none ↔ tree.info.hasError = false)) ∧
    ∀ filter limit source,
      (tree.asMet.firstFaulty? 0 = none → run filter limit source tree.asMet =
        .ofSteps (tree.asMet.walk source filter limit)) ∧
      ∀ index found path, tree.asMet.firstFaulty? 0 = some (index, found) →
        (run filter limit source tree.asMet).result.mapError (·.toFault path) =
          .error (.parse path
            (found.complaintAt (source.row found.start + 1) (source.byteColumn found.start))) := by
  have hnone := firstFaulty?_eq_none hflags.cover
  have hclear := firstFaulty?_of_clear hflags
  refine ⟨hnone, fun index found => firstFaulty?_eq_some hflags.cover, hclear, ?_, ?_⟩
  · intro hshow
    have hfault := faultAt_of_unaliased hshow
    refine ⟨hfault, ?_, hclear⟩
    intro hclean
    by_contra hset
    obtain ⟨p, hp⟩ := hflags.root.mp (by simpa using hset)
    exact hnone.mp hclean p ((hfault p).mpr hp)
  · intro filter limit source
    refine ⟨run_of_none, ?_⟩
    intro index found path hfound
    rw [run_of_some hfound, ← SyntaxFault.message_ofNode]
    rfl

/-! ## Errors below aliases -/

/-- A node with a fault below it. -/
def flagged (node : Node) : Node := .mk { node.info with hasError := true } node.children

/-- Tokens that fit nowhere. -/
def erroneous (start stop : Nat) (children : List Node) : Node :=
  .mk ⟨"ERROR", "ERROR", start, stop, true, true, false, true, []⟩ children

/-- A token that the source lacks. -/
def missing (kind : String) (start : Nat) : Node :=
  .mk ⟨kind, kind, start, start, false, false, true, true, []⟩ []

def unclosedText : Source := .ofString "pu)ts(a"

/-- The tree of `unclosedText`: a command, with an error before its arguments and a missing
parenthesis in them. -/
def unclosedTree : Node :=
  flagged (branch "program" 0 7 []
    [flagged (branch "call" 0 7 []
      [leaf "identifier" 0 2 ["method"], erroneous 2 3 [token ")" 2 3],
       flagged (branch "argument_list" 3 7 ["arguments"]
        [flagged (branch "call" 3 7 []
          [leaf "identifier" 3 5 ["method"],
           flagged (branch "argument_list" 5 7 ["arguments"]
            [token "(" 5 6, leaf "identifier" 6 7 [], missing ")" 7])])])])])

/-- The error in the command is met as a call, so the parenthesis is the first fault. -/
theorem unclosed_rejects :
    unclosedTree.FlagsExact ∧
    (∃ p, unclosedTree.positions[11]? = some p ∧ unclosedTree.FaultAt p ∧
      ∀ q, Before q p → ¬ unclosedTree.FaultAt q) ∧
    (run .passThrough 9 unclosedText unclosedTree.asMet).result.mapError (·.toFault ⟨"a.rb"⟩) =
      .error (.parse ⟨"a.rb"⟩ "missing ) at line 1, column 7") := by
  have hflags : unclosedTree.FlagsExact := by decide
  obtain ⟨-, hfirst, -, -, hrun⟩ := first_fault_rejects hflags
  have hfound : unclosedTree.asMet.firstFaulty? 0 = some (11, missing ")" 7) := by rfl
  refine ⟨hflags, ?_, ?_⟩
  · obtain ⟨p, hp, -, hfault, hbefore⟩ := hfirst 11 _ hfound
    exact ⟨p, hp, hfault, hbefore⟩
  · rw [(hrun .passThrough 9 unclosedText).2 11 _ ⟨"a.rb"⟩ hfound]
    rfl

def lambdaText : Source := .ofString "->(a; b) { a; b; c }"

/-- The tree of `lambdaText`: an error in the parameters of a lambda. -/
def lambdaTree : Node :=
  flagged (branch "program" 0 20 []
    [flagged (branch "lambda" 0 20 []
      [token "->" 0 2,
       flagged (branch "lambda_parameters" 2 8 ["parameters"]
        [token "(" 2 3, erroneous 3 5 [leaf "identifier" 3 4 [], token ";" 4 5],
         leaf "identifier" 6 7 [], token ")" 7 8]),
       branch "block" 9 20 ["body"]
        [token "\x7b" 9 10,
         branch "block_body" 11 18 ["body"]
          [leaf "identifier" 11 12 [], token ";" 12 13, leaf "identifier" 14 15 [],
           token ";" 15 16, leaf "identifier" 17 18 []],
         token "\x7d" 19 20]])])

/-- Its flags are right and it holds an error, and still no fault is found and references are
answered. -/
theorem aliased_error_accepted :
    lambdaTree.FlagsExact ∧ lambdaTree.info.hasError = true ∧
    lambdaTree.nodeAt? [1, 1, 0] =
      some (erroneous 3 5 [leaf "identifier" 3 4 [], token ";" 4 5]) ∧
    lambdaTree.asMet.firstFaulty? 0 = none ∧
    (run .passThrough 9 lambdaText lambdaTree.asMet).result =
      .ok [⟨.call, "a", none, none, ⟨1, 3, 1, 4⟩, "a"⟩,
        ⟨.call, "a", none, none, ⟨1, 11, 1, 12⟩, "a"⟩,
        ⟨.call, "c", none, none, ⟨1, 17, 1, 18⟩, "c"⟩] := by
  refine ⟨by decide, rfl, rfl, by rfl, ?_⟩
  rw [run_of_none (by rfl), walk_eq_sweep]
  rfl

/-! ## Lines and columns -/

/-- **The place of a fault.** A tree with a fault is rejected where the flags cover it, for the
first fault in pre-order. The line in the message is the first line of the fault's extent. The
column counts the bytes before it in the line, whereas the first column of the extent counts the
characters, as the columns of references do. So the two agree exactly where each of these has one
byte. -/
theorem fault_coordinates (hstarts : ∀ node ∈ tree.preorder, source.Boundary node.start) :
    (tree.FlagsCover → (∃ node ∈ tree.preorder, node.info.isFaulty = true) →
      ∃ fault, (run filter limit source tree).result = .error (.malformed fault)) ∧
    ∀ fault, (run filter limit source tree).result = .error (.malformed fault) →
      ∃ index found, tree.firstFaulty? 0 = some (index, found) ∧
        (tree.FlagsCover → tree.preorder.find? (·.info.isFaulty) = some found) ∧
        fault.message =
          found.complaintAt (Span.ofOffsets source found.start found.stop).line fault.byteColumn ∧
        (Span.ofOffsets source found.start found.stop).column =
          (source.linePrefix found.start).length ∧
        fault.byteColumn = Text.byteLength (source.linePrefix found.start) ∧
        (fault.byteColumn = (Span.ofOffsets source found.start found.stop).column ↔
          ∀ c ∈ source.linePrefix found.start, c.utf8Size = 1) := by
  constructor
  · intro hcover hfault
    obtain ⟨node, hnode, hfaulty⟩ := hfault
    cases hfound : tree.firstFaulty? 0 with
    | none =>
      rw [firstFaulty?_eq_scan? tree 0 hcover] at hfound
      exact absurd hfaulty (scan?_eq_none.mp hfound node hnode)
    | some entry => exact ⟨_, by rw [run_of_some hfound]⟩
  · intro fault hrun
    obtain ⟨index, found, hfound, rfl⟩ := run_malformed hrun
    have hboundary := hstarts found (mem_of_firstFaulty? hfound)
    refine ⟨index, found, hfound, ?_, SyntaxFault.message_ofNode source found,
      Source.column_of_boundary hboundary, rfl, Source.byteColumn_eq_column_iff hboundary⟩
    intro hcover
    rw [← scan?_snd 0, ← firstFaulty?_eq_scan? tree 0 hcover, hfound]
    rfl

def accentText : Source := .ofString "'é'; )\n"

/-- The tree of `accentText`: a parenthesis that nothing opens. -/
def accentTree : Node :=
  flagged (branch "program" 0 8 []
    [branch "string" 0 4 [] [token "\"" 0 1, leaf "string_content" 1 3 [], token "\"" 3 4],
     token ";" 4 5, erroneous 6 7 [token ")" 6 7]])

/-- The accent before the parenthesis takes two bytes. -/
theorem accent_rejects :
    (∀ node ∈ accentTree.preorder, accentText.Boundary node.start) ∧
    ∃ fault, (run .passThrough 9 accentText accentTree).result = .error (.malformed fault) ∧
      fault.byteColumn = 6 ∧ ¬ ∀ c ∈ accentText.linePrefix 6, c.utf8Size = 1 := by
  have hstarts : ∀ node ∈ accentTree.preorder, accentText.Boundary node.start := by decide
  obtain ⟨hrejects, hplace⟩ := @fault_coordinates .passThrough 9 _ _ hstarts
  obtain ⟨fault, hfault⟩ :=
    hrejects (FlagsExact.cover (by decide)) ⟨_, mem_preorder.mpr ⟨[2], rfl⟩, rfl⟩
  obtain ⟨index, found, hfound, -, -, -, hcolumn, -⟩ := hplace fault hfault
  have hnode : accentTree.firstFaulty? 0 = some (6, erroneous 6 7 [token ")" 6 7]) := by rfl
  rw [hnode] at hfound
  obtain ⟨rfl, rfl⟩ := Prod.mk.inj (Option.some.inj hfound)
  have haccent : (accentText.linePrefix 6)[1]? = some 'é' := by rfl
  refine ⟨hstarts, fault, hfault, hcolumn, ?_⟩
  intro hnarrow
  exact absurd (hnarrow 'é' (List.mem_of_getElem? haccent)) (by decide)

/-- The message about the parenthesis names the column in bytes, and its extent begins one column
before that. -/
theorem column_behind_accent :
    accentTree.FlagsExact ∧
    accentTree.asMet.firstFaulty? 0 = some (6, erroneous 6 7 [token ")" 6 7]) ∧
    (run .passThrough 9 accentText accentTree.asMet).result.mapError (·.toFault ⟨"a.rb"⟩) =
      .error (.parse ⟨"a.rb"⟩ "syntax error at line 1, column 6") ∧
    Span.ofOffsets accentText 6 7 = ⟨1, 5, 1, 6⟩ := by
  exact ⟨by decide, by rfl, by rfl, by rfl⟩

end Extraction
end CallSift
