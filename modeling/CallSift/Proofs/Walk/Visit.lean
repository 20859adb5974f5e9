import CallSift.Proofs.Walk.Recognition
import CallSift.Walk.Basic

/-!
# All that a visit of one node can do

* `Visit` lists the ways a visit can go, and `visit_spec` says that it goes one of
  them. What follows about visits follows from the list, never from the code.
* `Visit.reports`: the ways in which it can come by a reference.
* `visit_choose`: a visit with a filter is the visit without one, its findings
  chosen afterwards.
-/
namespace CallSift

namespace Steps

/-- The run without the references that a filter rejects. -/
def choose (filter : Filter) (steps : Steps) : Steps :=
  ⟨steps.findings.filter fun finding => finding.reference?.all filter.accepts, steps.ending⟩

theorem offer_passThrough (reference : Reference) (scopes : Scopes) :
    offer .passThrough reference scopes = found [.reference reference] scopes := rfl

theorem offer_ending (filter : Filter) (reference : Reference) (scopes : Scopes) :
    (offer filter reference scopes).ending = .ok scopes := by
  unfold offer; split <;> rfl

theorem mem_offer {filter : Filter} {offered reference : Reference} {scopes : Scopes}
    (h : Finding.reference reference ∈ (offer filter offered scopes).findings) :
    reference = offered ∧ filter.accepts reference = true := by
  unfold offer at h
  split at h
  · simp only [found, List.mem_singleton, Finding.reference.injEq] at h
    exact ⟨h, by rwa [h]⟩
  · simp [done] at h

theorem choose_done (filter : Filter) (scopes : Scopes) :
    (done scopes).choose filter = done scopes := rfl

theorem choose_offer (filter : Filter) (reference : Reference) (scopes : Scopes) :
    (offer .passThrough reference scopes).choose filter = offer filter reference scopes := by
  rw [offer_passThrough]
  unfold offer choose found done
  by_cases h : filter.accepts reference = true <;> simp [Finding.reference?, h]

theorem choose_andThen (filter : Filter) (steps : Steps) (next : Scopes → Steps) :
    (steps.andThen next).choose filter =
      (steps.choose filter).andThen fun scopes => (next scopes).choose filter := by
  unfold andThen choose
  cases h : steps.ending <;> simp [h]

end Steps

namespace Node

/-- The ways in which a visit of a node can go, with the frames that it meets. -/
inductive Visit (source : Source) (filter : Filter) (parent : Option Node) (node : Node)
    (scopes : Scopes) : Steps → Prop
  | call {reference : Reference} : node.kind = "call" →
      node.callReference source parent = .ok (some reference) →
      Visit source filter parent node scopes (.offer filter reference scopes)
  /-- A call of the parent's method. -/
  | unnamed : node.kind = "call" → node.callReference source parent = .ok none →
      Visit source filter parent node scopes (.done scopes)
  | command {reference : Reference} : node.kind = "subshell" →
      node.commandReference source = .ok reference →
      Visit source filter parent node scopes (.offer filter reference scopes)
  | binding {name : String} : node.kind = "identifier" → node.text? source = some name →
      Role.of parent node = .binding →
      Visit source filter parent node scopes (.done (scopes.declare name))
  /-- The name or the receiver of a call, or the name in a definition. -/
  | attached {name : String} : node.kind = "identifier" → node.text? source = some name →
      Role.of parent node = .name ∨ Role.of parent node = .receiver →
      Visit source filter parent node scopes (.done scopes)
  /-- An identifier that a frame in sight binds. -/
  | known {name : String} : node.kind = "identifier" → node.text? source = some name →
      Role.of parent node = .read → scopes.binds name = true →
      Visit source filter parent node scopes (.done scopes)
  | bare {name : String} : node.kind = "identifier" → node.text? source = some name →
      Role.of parent node = .read → scopes.binds name = false →
      Visit source filter parent node scopes
        (.offer filter (node.bareReference source name) scopes)
  /-- A node that is neither call nor command nor identifier. -/
  | other {findings : List Finding} : node.kind ≠ "call" → node.kind ≠ "subshell" →
      node.kind ≠ "identifier" → (∀ finding ∈ findings, finding.reference? = none) →
      Visit source filter parent node scopes (.found findings scopes)
  | stopped {fault : WalkFault} :
      (node.kind = "call" ∧ node.callReference source parent = .error fault) ∨
        (node.kind = "subshell" ∧ node.commandReference source = .error fault) ∨
        (node.kind = "identifier" ∧ node.text source = .error fault) →
      Visit source filter parent node scopes (.failed fault)

theorem visitIdentifier_spec (source : Source) (filter : Filter) (parent : Option Node)
    (node : Node) (scopes : Scopes) (hk : node.kind = "identifier") :
    Visit source filter parent node scopes
      (.ofExcept (node.visitIdentifier source filter parent scopes)) := by
  unfold visitIdentifier
  cases ht : node.text source with
  | error fault => exact .stopped (Or.inr (Or.inr ⟨hk, ht⟩))
  | ok name =>
    have hn := text_eq_ok.mp ht
    simp only [Except.map, Steps.ofExcept]
    split
    · rename_i hr; exact .binding hk hn hr
    · rename_i hr; exact .attached hk hn (Or.inl hr)
    · rename_i hr; exact .attached hk hn (Or.inr hr)
    · rename_i hr
      split
      · rename_i hb; exact .known hk hn hr hb
      · rename_i hb; exact .bare hk hn hr (by simpa using hb)

theorem visit_spec (source : Source) (filter : Filter) (parent : Option Node) (node : Node)
    (scopes : Scopes) :
    Visit source filter parent node scopes (node.visit source filter parent scopes) := by
  unfold visit
  split
  · rename_i hk
    cases hc : node.callReference source parent with
    | error fault => exact .stopped (Or.inl ⟨hk, hc⟩)
    | ok reference =>
      cases reference with
      | none => exact .unnamed hk hc
      | some r => exact .call hk hc
  · rename_i hk
    cases hc : node.commandReference source with
    | error fault => exact .stopped (Or.inr (Or.inl ⟨hk, hc⟩))
    | ok r => exact .command hk hc
  · rename_i hk; exact visitIdentifier_spec source filter parent node scopes hk
  · rename_i hk
    exact .other (by simp [hk]) (by simp [hk]) (by simp [hk]) (by simp [Finding.reference?])
  · rename_i hk
    exact .other (by simp [hk]) (by simp [hk]) (by simp [hk]) (by simp [Finding.reference?])
  · rename_i h1 h2 h3 _ _
    exact .other h1 h2 h3 (fun finding hf => absurd hf (List.not_mem_nil))

/-- The ways in which a visit of a node can come by a reference. -/
inductive Reports (source : Source) (parent : Option Node) (node : Node) : Reference → Prop
  | call {reference : Reference} : node.callReference source parent = .ok (some reference) →
      Reports source parent node reference
  | command {reference : Reference} : node.commandReference source = .ok reference →
      Reports source parent node reference
  | bare {name : String} : node.text? source = some name →
      Reports source parent node (node.bareReference source name)

/-- A reference that is found is reported in one of these ways, and passes the filter. -/
theorem Visit.reports {source : Source} {filter : Filter} {parent : Option Node} {node : Node}
    {scopes : Scopes} {steps : Steps} {reference : Reference}
    (hv : Visit source filter parent node scopes steps)
    (h : .reference reference ∈ steps.findings) :
    Reports source parent node reference ∧ filter.accepts reference = true := by
  cases hv with
  | call _ hc =>
    obtain ⟨rfl, haccepted⟩ := Steps.mem_offer h
    exact ⟨.call hc, haccepted⟩
  | command _ hc =>
    obtain ⟨rfl, haccepted⟩ := Steps.mem_offer h
    exact ⟨.command hc, haccepted⟩
  | bare _ ht _ _ =>
    obtain ⟨rfl, haccepted⟩ := Steps.mem_offer h
    exact ⟨.bare ht, haccepted⟩
  | unnamed | binding | attached | known => simp [Steps.done] at h
  | other _ _ _ hnone => cases hnone _ h
  | stopped _ => simp [Steps.failed] at h

/-- A visit that is stopped has found nothing. -/
theorem visit_failed {source : Source} {filter : Filter} {parent : Option Node} {node : Node}
    {scopes : Scopes} {fault : WalkFault}
    (h : (node.visit source filter parent scopes).ending = .error fault) :
    node.visit source filter parent scopes = .failed fault := by
  have hv := node.visit_spec source filter parent scopes
  generalize node.visit source filter parent scopes = steps at h hv
  cases hv with
  | call | command | bare => rw [Steps.offer_ending] at h; cases h
  | unnamed | binding | attached | known | other => cases h
  | stopped => cases h; rfl

theorem visit_choose (source : Source) (filter : Filter) (parent : Option Node) (node : Node)
    (scopes : Scopes) : node.visit source filter parent scopes =
      (node.visit source .passThrough parent scopes).choose filter := by
  unfold visit
  split
  · cases node.callReference source parent with
    | error fault => rfl
    | ok reference =>
      cases reference with
      | none => rfl
      | some r => exact (Steps.choose_offer filter r scopes).symm
  · cases node.commandReference source with
    | error fault => rfl
    | ok r => exact (Steps.choose_offer filter r scopes).symm
  · unfold visitIdentifier
    cases node.text source with
    | error fault => rfl
    | ok name =>
      simp only [Except.map, Steps.ofExcept]
      split
      · rfl
      · rfl
      · rfl
      · split
        · rfl
        · exact (Steps.choose_offer filter _ scopes).symm
  · rfl
  · rfl
  · rfl

end Node
end CallSift
