import CallSift.Archive.Kind
import CallSift.Proofs.Path.Steps

/-!
# The normal form of an absolute path

Components lead from the root to a place: a name leads down, `..` back up, and at the
root it leads nowhere. The normal form of an absolute path names this place. A `..` that
leads nowhere is kept, though, and the next one takes the kept one away, so every second
one of them shows.

* `resolve` and `surplus`: the place, and how many `..` led nowhere.
* `foldl_fold_rooted`: what the folding of components keeps of both.
* `normal_form_of_absolute`: the normal form by the two, and when it is canonical.
* `climb_kept_at_root`: the shortest path that keeps a `..`.
-/
namespace CallSift.Path

/-! ## Places below the root -/

/-- Where a component leads from a place below the root. -/
def step (place : List Bytes) : Component → List Bytes
  | .root => []
  | .current => place
  | .parent => place.dropLast
  | .normal name => place ++ [name]

/-- Where components lead from the root. -/
def resolve (components : List Component) : List Bytes := components.foldl step []

/-- How many `..` among components lead nowhere, because the root is reached. -/
def surplus (place : List Bytes) : List Component → Nat
  | [] => 0
  | component :: rest =>
    (if component = .parent ∧ place = [] then 1 else 0) + surplus (step place component) rest

theorem resolve_root (rest : List Component) : resolve (.root :: rest) = resolve rest := rfl

theorem surplus_root (rest : List Component) : surplus [] (.root :: rest) = surplus [] rest := by
  simp [surplus, step]

/-- Names that a place consists of are the names of components. -/
theorem isName_of_mem_resolve {components : List Component} {name : Bytes}
    (hsteps : ∀ component ∈ components, component.IsStep) (h : name ∈ resolve components) :
    IsName name := by
  unfold resolve at h
  induction components using List.reverseRecOn with
  | nil => simp at h
  | append_singleton before last ih =>
    rw [List.foldl_append] at h
    have hbefore : name ∈ before.foldl step [] → IsName name :=
      ih fun component hmem => hsteps component (List.mem_append_left _ hmem)
    rcases hsteps last (by simp) with rfl | ⟨own, hown, rfl⟩
    · exact hbefore (List.dropLast_subset _ h)
    · rcases List.mem_append.mp h with h | h
      · exact hbefore h
      · rwa [List.mem_singleton.mp h]

/-! ## What folding keeps -/

/-- The components of a place, behind a `..` at the root if the number of climbs is odd. -/
def rooted (climbs : Nat) (place : List Bytes) : List Component :=
  .root :: ((if climbs % 2 = 0 then [] else [.parent]) ++ place.map .normal)

/-- One more `..` at the root makes the kept one come or go; other components move the place. -/
theorem fold_rooted (climbs : Nat) (place : List Bytes) {component : Component}
    (h : component ≠ .root) :
    fold (rooted climbs place) component =
      rooted (climbs + if component = .parent ∧ place = [] then 1 else 0)
        (step place component) := by
  cases component with
  | root => exact absurd rfl h
  | current => simp [fold, step]
  | normal name => simp [fold, step, rooted]
  | parent =>
    rcases List.eq_nil_or_concat place with rfl | ⟨above, last, rfl⟩
    · -- at the root nothing can be removed, but a `..` that was kept can
      by_cases heven : climbs % 2 = 0
      · have hodd : (climbs + 1) % 2 ≠ 0 := by omega
        simp [fold, step, rooted, heven, hodd, parent?]
      · have hnext : (climbs + 1) % 2 = 0 := by omega
        simp [fold, step, rooted, heven, hnext, parent?]
    · have hparent : parent? (rooted climbs (above ++ [last])) = some (rooted climbs above) := by
        have hsplit : rooted climbs (above ++ [last]) = rooted climbs above ++ [.normal last] := by
          simp [rooted]
        rw [hsplit, parent?_append _ (by simp)]
      simp [fold, step, hparent]

/-- Folding components keeps the place that they lead to and counts what led nowhere. -/
theorem foldl_fold_rooted {components : List Component} (h : .root ∉ components) (climbs : Nat)
    (place : List Bytes) :
    components.foldl fold (rooted climbs place) =
      rooted (climbs + surplus place components) (components.foldl step place) := by
  induction components generalizing climbs place with
  | nil => simp [surplus]
  | cons component rest ih =>
    obtain ⟨hne, hrest⟩ := List.ne_and_not_mem_of_not_mem_cons h
    rw [List.foldl_cons, fold_rooted climbs place hne.symm, ih hrest, surplus, List.foldl_cons,
      Nat.add_assoc]

theorem normalize_root {rest : List Component} (h : .root ∉ rest) :
    normalize (.root :: rest) = rooted (surplus [] rest) (resolve rest) := by
  have hfold := foldl_fold_rooted h 0 []
  rw [Nat.zero_add] at hfold
  exact hfold

theorem rooted_eq_iff {climbs other : Nat} {place : List Bytes} :
    rooted climbs place = rooted other place ↔ climbs % 2 = other % 2 := by
  unfold rooted
  have := Nat.mod_two_eq_zero_or_one climbs
  have := Nat.mod_two_eq_zero_or_one other
  by_cases heven : climbs % 2 = 0 <;> by_cases hother : other % 2 = 0 <;>
    simp [heven, hother] <;> omega

/-- What is kept is a normal form itself. -/
theorem normalize_rooted (climbs : Nat) (place : List Bytes) :
    normalize (rooted climbs place) = rooted climbs place := by
  unfold rooted
  by_cases heven : climbs % 2 = 0
  · simp only [heven, if_true, List.nil_append]
    exact foldl_fold_normal [.root] place
  · simp only [heven, if_false]
    exact foldl_fold_normal [.root, .parent] place

theorem rooted_steps (climbs : Nat) {place : List Bytes} (h : ∀ name ∈ place, IsName name) :
    ∃ steps, rooted climbs place = .root :: steps ∧ ∀ step ∈ steps, step.IsStep := by
  refine ⟨_, rfl, ?_⟩
  intro step hstep
  rcases List.mem_append.mp hstep with hstep | hstep
  · by_cases heven : climbs % 2 = 0
    · simp [heven] at hstep
    · simp only [heven, if_false, List.mem_singleton] at hstep
      exact .inl hstep
  · obtain ⟨name, hname, rfl⟩ := List.mem_map.mp hstep
    exact .normal (h name hname)

/-- A path that is made of a normal form is in normal form. -/
theorem ofComponents_rooted (climbs : Nat) {place : List Bytes}
    (h : ∀ name ∈ place, IsName name) :
    (ofComponents (rooted climbs place)).isAbsolute = true ∧
      (ofComponents (rooted climbs place)).components = rooted climbs place := by
  obtain ⟨steps, hrooted, hsteps⟩ := rooted_steps climbs h
  rw [hrooted]
  exact ⟨isAbsolute_ofAbsolute hsteps, components_ofAbsolute hsteps⟩

/-! ## Absolute paths -/

/-- The path behind so many `/..`. -/
def climbed (path : Path) : Nat → Path
  | 0 => path
  | count + 1 => ⟨"/.." ++ (path.climbed count).bytes⟩

theorem isAbsolute_climbed {path : Path} (h : path.isAbsolute = true) (count : Nat) :
    (path.climbed count).isAbsolute = true := by
  cases count with
  | zero => exact h
  | succ count => rfl

theorem plainPieces_climb {path : Path} (h : path.isAbsolute = true) :
    plainPieces ⟨"/.." ++ path.bytes⟩ = .parent :: path.plainPieces := by
  obtain ⟨cs, hcs⟩ := toList_of_isAbsolute h
  have hclimb : (("/.." : Bytes) ++ path.bytes).toList =
      [Bytes.slash, Bytes.dot, Bytes.dot] ++ Bytes.slash :: cs := by
    rw [Bytes.toList_append, hcs]
    rfl
  rw [plainPieces, plainPieces, hclimb, hcs, Text.splitAt_append, Text.splitAt_separator]
  rfl

theorem plainPieces_climbed {path : Path} (h : path.isAbsolute = true) (count : Nat) :
    (path.climbed count).plainPieces = List.replicate count .parent ++ path.plainPieces := by
  induction count with
  | zero => rfl
  | succ count ih =>
    rw [climbed, plainPieces_climb (isAbsolute_climbed h count), ih]
    rfl

/-- Climbs in front lead nowhere. -/
theorem surplus_climbs (count : Nat) (rest : List Component) :
    surplus [] (List.replicate count .parent ++ rest) = count + surplus [] rest ∧
      resolve (List.replicate count .parent ++ rest) = resolve rest := by
  induction count with
  | zero => simp
  | succ count ih =>
    obtain ⟨hsurplus, hresolve⟩ := ih
    refine ⟨?_, hresolve⟩
    simp only [List.replicate_succ, List.cons_append, surplus, step, List.dropLast_nil, and_self,
      if_true, hsurplus]
    omega

section
variable {path : Path} (h : path.isAbsolute = true)
include h

theorem normalize_of_absolute : normalize path.components =
    rooted (surplus [] path.components) (resolve path.components) := by
  rw [components_plainPieces h, surplus_root, resolve_root]
  exact normalize_root (root_not_mem_steps fun _ => isStep_of_mem_plainPieces)

theorem normalize_climbed (count : Nat) : normalize (path.climbed count).components =
    rooted (count + surplus [] path.components) (resolve path.components) := by
  obtain ⟨hsurplus, hresolve⟩ := surplus_climbs count path.plainPieces
  rw [normalize_of_absolute (isAbsolute_climbed h count),
    components_plainPieces (isAbsolute_climbed h count), plainPieces_climbed h,
    components_plainPieces h, surplus_root, resolve_root, surplus_root, resolve_root, hsurplus,
    hresolve]

theorem isName_of_mem_place {name : Bytes} (hname : name ∈ resolve path.components) :
    IsName name := by
  rw [components_plainPieces h, resolve_root] at hname
  exact isName_of_mem_resolve (fun _ => isStep_of_mem_plainPieces) hname

/-- A normal form leads from the root. -/
theorem normalize_steps : ∃ steps, normalize path.components = .root :: steps ∧
    ∀ step ∈ steps, Component.IsStep step := by
  rw [normalize_of_absolute h]
  exact rooted_steps _ fun _ => isName_of_mem_place h

end

/-- **Normal form.** The normal form of an absolute path is an absolute path that names the place
to which the components lead. In front of it stands a `..` if an odd number of `..` led nowhere,
and nothing otherwise: in this case, and only then, it is canonical. Bringing a normal form to
normal form changes nothing, and `/..` in front of a path change nothing exactly if their number
is even. -/
theorem normal_form_of_absolute {path : Path} (h : path.isAbsolute = true) :
    normalize path.components = rooted (surplus [] path.components) (resolve path.components) ∧
    (ofComponents (normalize path.components)).isAbsolute = true ∧
    (ofComponents (normalize path.components)).components = normalize path.components ∧
    .current ∉ normalize path.components ∧
    (.parent ∉ normalize path.components ↔ surplus [] path.components % 2 = 0) ∧
    (normalize path.components = .root :: (resolve path.components).map .normal ↔
      surplus [] path.components % 2 = 0) ∧
    normalize (normalize path.components) = normalize path.components ∧
    ∀ count, normalize (path.climbed count).components = normalize path.components ↔
      count % 2 = 0 := by
  have hnormal := normalize_of_absolute h
  obtain ⟨steps, hroot, hsteps⟩ := normalize_steps h
  refine ⟨hnormal, ?_, ?_, ?_, ?_, ?_, ?_, ?_⟩
  · rw [hroot]
    exact isAbsolute_ofAbsolute hsteps
  · rw [hroot]
    exact components_ofAbsolute hsteps
  · simp [hnormal, rooted]
  · rw [hnormal, rooted]
    by_cases heven : surplus [] path.components % 2 = 0 <;> simp [heven]
  · have hzero : Component.root :: (resolve path.components).map .normal =
        rooted 0 (resolve path.components) := rfl
    rw [hnormal, hzero, rooted_eq_iff]
  · rw [hnormal, normalize_rooted]
  · intro count
    rw [normalize_climbed h count, hnormal, rooted_eq_iff]
    omega

/-- Both `..` that lead nowhere are gone. -/
theorem double_climb_canonical :
    (Path.mk "/a/../../.././b/../c/").isAbsolute = true ∧
    normalize (Path.mk "/a/../../.././b/../c/").components = [.root, .normal "c"] := by
  have habsolute : (Path.mk "/a/../../.././b/../c/").isAbsolute = true := by decide
  obtain ⟨-, -, -, -, -, hcanonical, -⟩ := normal_form_of_absolute habsolute
  exact ⟨habsolute, hcanonical.mpr (by decide)⟩

/-- A `..` at the root is kept and shows in the name of a package, and a second one takes it away
again. -/
theorem climb_kept_at_root :
    (Path.mk "/..").isAbsolute = true ∧ resolve (Path.mk "/..").components = [] ∧
    normalize (Path.mk "/..").components = [.root, .parent] ∧
    normalize ((Path.mk "/").climbed 1).components ≠ normalize (Path.mk "/").components ∧
    normalize (Path.mk "/../..").components = [.root] ∧
    packageName ⟨"/"⟩ ⟨"/.."⟩ = "/.." := by
  decide

end CallSift.Path
