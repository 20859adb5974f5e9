import CallSift.Proofs.FileSystem.Normal

/-!
# Steps from a path

A step leads to the directory above or to an entry. A list of steps is written as a
relative path, and where this is appended to another path the steps come behind the
components of that.

* `components_ofSteps`: the steps are the components of the path that is made of them.
* `components_push_ofSteps`: they come behind the components of what it is appended to.
* `components_ofAbsolute`: the same for steps from the root.
-/
namespace CallSift

/-- A component that may stand anywhere but in front. -/
def Component.IsStep (component : Component) : Prop :=
  component = .parent ∨ ∃ name, IsName name ∧ component = .normal name

namespace Component.IsStep

variable {component : Component}

theorem normal {name : Bytes} (h : IsName name) : IsStep (.normal name) := .inr ⟨name, h, rfl⟩

theorem noSlash (h : component.IsStep) : Bytes.slash ∉ component.bytes.toList := by
  rcases h with rfl | ⟨name, hname, rfl⟩
  · decide
  · exact hname.noSlash

theorem ofPiece?_text (h : component.IsStep) :
    ofPiece? component.bytes.toList = some component := by
  rcases h with rfl | ⟨name, hname, rfl⟩
  · rfl
  · exact Path.ofPiece?_name hname

theorem nonempty (h : component.IsStep) : component.bytes ≠ .empty := by
  rcases h with rfl | ⟨name, hname, rfl⟩
  · decide
  · exact hname.nonempty

end Component.IsStep

namespace Path

/-- The components of an absolute path are the root and what stands between its slashes. -/
theorem components_plainPieces {path : Path} (h : path.isAbsolute = true) :
    path.components = .root :: path.plainPieces := by
  rw [components_absolute h, plainPieces_eq]

/-- Behind the root of an absolute path there are steps. -/
theorem isStep_of_mem_plainPieces {path : Path} {component : Component}
    (h : component ∈ path.plainPieces) : component.IsStep := by
  rw [plainPieces_eq] at h
  obtain ⟨name, hname, rfl⟩ := List.mem_map.mp h
  unfold Component.ofName
  split
  · exact .inl rfl
  · next hparent => exact .normal (isName_of_mem_plainNames hname hparent)

theorem root_not_mem_steps {steps : List Component} (h : ∀ step ∈ steps, step.IsStep) :
    .root ∉ steps := by
  intro hroot
  rcases h _ hroot with hparent | ⟨name, -, hname⟩
  · cases hparent
  · cases hname

/-- A relative path is appended by its components, but for a dot in front. -/
theorem components_join {path relative : Path} (hpath : path.bytes ≠ .empty)
    (h : relative.isAbsolute = false) :
    (path.push relative).components = path.components ++ withoutCurrent relative.components := by
  have hplain : withoutCurrent relative.components = relative.plainPieces := by
    by_cases hempty : relative.bytes = .empty
    · simp [components_of_empty hempty, plainPieces, hempty, Text.splitAt, withoutCurrent,
        Component.ofPiece?]
    · rw [components_relative hempty h, plainPieces_eq]
  rw [components_push_relative hpath h, hplain, plainPieces]

section
variable {steps : List Component} (hsteps : ∀ step ∈ steps, step.IsStep)
include hsteps

theorem components_foldl_push (path : Path) :
    (steps.foldl (fun path step => path.push ⟨step.bytes⟩) path).components =
      path.components ++ steps := by
  induction steps generalizing path with
  | nil => simp
  | cons step rest ih =>
    obtain ⟨hstep, hrest⟩ := List.forall_mem_cons.mp hsteps
    rw [List.foldl_cons, ih hrest, components_push_piece path hstep.noSlash hstep.ofPiece?_text,
      List.append_assoc, List.singleton_append]

theorem isAbsolute_foldl_push (path : Path) (hpath : path.bytes ≠ .empty) :
    (steps.foldl (fun path step => path.push ⟨step.bytes⟩) path).isAbsolute = path.isAbsolute := by
  induction steps generalizing path with
  | nil => rfl
  | cons step rest ih =>
    obtain ⟨hstep, hrest⟩ := List.forall_mem_cons.mp hsteps
    have hrelative := isAbsolute_of_not_mem hstep.noSlash
    have hnext : (path.push ⟨step.bytes⟩).bytes ≠ .empty := by
      rcases bytes_push_relative path hrelative with htext | htext <;> simp [htext, hpath]
    rw [List.foldl_cons, ih hrest _ hnext, isAbsolute_push_relative hpath hrelative]

theorem components_ofSteps : (ofComponents steps).components = steps :=
  components_foldl_push hsteps ⟨.empty⟩

theorem bytes_ofSteps_eq_empty : (ofComponents steps).bytes = .empty ↔ steps = [] := by
  constructor
  · intro hempty
    rw [← components_ofSteps hsteps, components_of_empty hempty]
  · rintro rfl
    rfl

theorem isAbsolute_ofSteps : (ofComponents steps).isAbsolute = false := by
  cases steps with
  | nil => rfl
  | cons step rest =>
    obtain ⟨hstep, hrest⟩ := List.forall_mem_cons.mp hsteps
    have hfirst : Path.push ⟨.empty⟩ ⟨step.bytes⟩ = ⟨step.bytes⟩ := by
      simp [push, isAbsolute_of_not_mem hstep.noSlash]
    rw [ofComponents, List.foldl_cons, hfirst,
      isAbsolute_foldl_push hrest ⟨step.bytes⟩ hstep.nonempty]
    exact isAbsolute_of_not_mem hstep.noSlash

/-- Steps come behind the components of the path that they start from. -/
theorem components_push_ofSteps {path : Path} (hpath : path.bytes ≠ .empty) :
    (path.push (ofComponents steps)).components = path.components ++ steps := by
  have hplain : withoutCurrent steps = steps := by
    cases steps with
    | nil => rfl
    | cons step rest =>
      rcases (List.forall_mem_cons.mp hsteps).1 with rfl | ⟨name, -, rfl⟩ <;> rfl
  rw [components_join hpath (isAbsolute_ofSteps hsteps), components_ofSteps hsteps, hplain]

theorem components_ofAbsolute : (ofComponents (.root :: steps)).components = .root :: steps :=
  components_foldl_push hsteps ⟨"/"⟩

theorem isAbsolute_ofAbsolute : (ofComponents (.root :: steps)).isAbsolute = true :=
  isAbsolute_foldl_push hsteps ⟨"/"⟩ (by decide)

end

end Path
end CallSift
