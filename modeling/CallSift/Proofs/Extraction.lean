import CallSift.Extraction
import CallSift.Proofs.Except
import CallSift.Proofs.Walk.Visit

/-!
# An allow-list chooses, and does nothing else

The walk offers each reference to its filter as it goes. Rejecting one changes
neither what is visited nor which names are bound nor where the walk stops.

* `walk_choose`: the walk with a filter is the walk without one, its findings
  chosen afterwards, whether it ends well or not.
* `allowList_chooses`: so is the extraction from a text, with or without
  syntax errors.
-/
namespace CallSift

namespace Node

section
variable (source : Source) (filter : Filter) (limit : Nat)

mutual
theorem walkFrom_choose (depth : Nat) (parent : Option Node) (scopes : Scopes) : ∀ node : Node,
    walkFrom source filter limit depth parent scopes node =
      (walkFrom source .passThrough limit depth parent scopes node).choose filter
  | mk info children => by
    unfold walkFrom
    split
    · rfl
    · have hbelow : ∀ inner, walkAll source filter limit (depth + 1) (mk info children) inner
          children = (walkAll source .passThrough limit (depth + 1) (mk info children) inner
            children).choose filter := fun inner =>
        walkAll_choose (depth + 1) (mk info children) inner children
      rw [Steps.choose_andThen, Steps.choose_andThen, ← visit_choose]
      simp only [hbelow, Steps.choose_done]
theorem walkAll_choose (depth : Nat) (parent : Node) (scopes : Scopes) : ∀ nodes : List Node,
    walkAll source filter limit depth parent scopes nodes =
      (walkAll source .passThrough limit depth parent scopes nodes).choose filter
  | [] => rfl
  | node :: rest => by
    have hrest : ∀ after, walkAll source filter limit depth parent after rest =
        (walkAll source .passThrough limit depth parent after rest).choose filter := fun after =>
      walkAll_choose depth parent after rest
    rw [walkAll, walkAll, Steps.choose_andThen, ← walkFrom_choose depth (some parent) scopes node]
    simp only [hrest]
end

theorem walk_choose (root : Node) : root.walk source filter limit =
    (root.walk source .passThrough limit).choose filter :=
  walkFrom_choose source filter limit 0 none .top root

end

end Node

namespace Extraction

/-- The references of a run are those that it found, and it was not stopped. -/
theorem ofSteps_ok {steps : Steps} {refs : List Reference} (h : (ofSteps steps).result = .ok refs) :
    ∃ scopes, steps.ending = .ok scopes ∧ refs = steps.findings.filterMap Finding.reference? := by
  unfold ofSteps at h
  split at h
  · rename_i scopes hs
    cases h; exact ⟨scopes, hs, rfl⟩
  · cases h

/-- The references of a run are among its findings. -/
theorem mem_findings {steps : Steps} {refs : List Reference}
    (h : (ofSteps steps).result = .ok refs) {reference : Reference} (hr : reference ∈ refs) :
    .reference reference ∈ steps.findings := by
  obtain ⟨scopes, -, rfl⟩ := ofSteps_ok h
  obtain ⟨finding, hmem, hf⟩ := List.mem_filterMap.mp hr
  cases finding with
  | reference found => cases hf; exact hmem
  | methodBody | singletonMethodBody => cases hf

/-- A run gives no references exactly when a fault has stopped it. -/
theorem ofSteps_error {steps : Steps} {fault : ExtractionFault} :
    (ofSteps steps).result = .error fault ↔
      ∃ stopped, steps.ending = .error stopped ∧ fault = .walk stopped := by
  unfold ofSteps
  cases steps.ending with
  | ok scopes => simp
  | error stopped => simp [eq_comm]

/-- What is chosen from the references of a run are the references of the run chosen from. -/
theorem references_choose (filter : Filter) (findings : List Finding) :
    (findings.filter fun finding => finding.reference?.all filter.accepts).filterMap
        Finding.reference? =
      (findings.filterMap Finding.reference?).filter filter.accepts := by
  induction findings with
  | nil => rfl
  | cons finding rest ih =>
    cases hr : finding.reference? with
    | none => simp [hr, ih]
    | some r => by_cases ha : filter.accepts r = true <;> simp [hr, ha, ih]

theorem ofSteps_choose (filter : Filter) (steps : Steps) :
    (ofSteps (steps.choose filter)).result =
      (ofSteps steps).result.map (List.filter filter.accepts) := by
  unfold ofSteps Steps.choose
  cases he : steps.ending with
  | error fault => simp [Except.map]
  | ok scopes => simp [Except.map, references_choose]

theorem run_choose (filter : Filter) (limit : Nat) (source : Source) (tree : Node) :
    (run filter limit source tree).result =
      (run .passThrough limit source tree).result.map (List.filter filter.accepts) := by
  unfold run
  cases SyntaxFault.of? source tree with
  | some fault => rfl
  | none =>
    simp only
    rw [Node.walk_choose, ofSteps_choose]

theorem ofText_choose (filter : Filter) (limit : Nat) (parse : String → Option Node)
    (text : String) : (ofText filter limit parse text).result =
      (ofText .passThrough limit parse text).result.map (List.filter filter.accepts) := by
  unfold ofText
  cases parse text with
  | none => rfl
  | some tree => exact run_choose filter limit (.ofString text) tree

/-- **Filtering.** An extraction with an allow-list fails exactly when the one
without fails, with the same fault and so the same error of the file; otherwise its
references are those of the other that the allow-list accepts, in their order. -/
theorem allowList_chooses (list : AllowList) (limit : Nat) (parse : String → Option Node)
    (text : String) (path : Path) :
    let chosen := (ofText (.ofAllowList list) limit parse text).result
    let all := (ofText .passThrough limit parse text).result
    (∀ fault, chosen = .error fault ↔ all = .error fault) ∧
    (∀ fault : Fault, chosen.mapError (·.toFault path) = .error fault ↔
      all.mapError (·.toFault path) = .error fault) ∧
    chosen = all.map (List.filter (Filter.ofAllowList list).accepts) := by
  intro chosen all
  have h : chosen = all.map (List.filter (Filter.ofAllowList list).accepts) :=
    ofText_choose _ limit parse text
  have hfault : ∀ fault, chosen = .error fault ↔ all = .error fault := by
    intro fault; rw [h, map_eq_error]
  refine ⟨hfault, ?_, h⟩
  intro fault
  simp only [mapError_eq_error, hfault]

/-- The tree of `b;c`: two names that nothing binds. -/
def twoNames : Node :=
  let name (start : Nat) : Node :=
    .mk ⟨"identifier", "identifier", start, start + 1, true, false, false, false, []⟩ []
  .mk ⟨"program", "program", 0, 3, true, false, false, false, []⟩ [name 0, name 2]

/-- A list that names one of two references keeps it and drops the other. -/
example :
    let names := fun filter =>
      (ofText filter 1 (fun _ => some twoNames) "b;c").result.map (List.map Reference.name)
    let list : AllowList := ⟨[⟨.functionDeclRefExpr, "c", none, none, none⟩], false, false, none⟩
    names .passThrough = .ok ["b", "c"] ∧ names (.ofAllowList list) = .ok ["c"] :=
  ⟨rfl, rfl⟩

end Extraction
end CallSift
