import CallSift.Proofs.FileSystem.Follow

/-!
# Dots among names

A dot leads from a directory to itself, so it makes no difference except that it asks
for a directory that may be entered.

* `locate_dropsDots`: names lead to the same place without their dots.
* `locate_dot`: names with a dot at the end lead to directories only.
-/
namespace CallSift.FileSystem

variable {fs : FileSystem}

/-- The same names with some dots left out. -/
inductive DropsDots : List Bytes → List Bytes → Prop
  | nil : DropsDots [] []
  | dot {names short : List Bytes} : DropsDots names short → DropsDots ("." :: names) short
  | keep (name : Bytes) {names short : List Bytes} :
      DropsDots names short → DropsDots (name :: names) (name :: short)

theorem DropsDots.refl : ∀ names, DropsDots names names
  | [] => .nil
  | name :: rest => .keep name (refl rest)

/-- A dot at the end is left out. -/
theorem DropsDots.last (names : List Bytes) : DropsDots (names ++ [("." : Bytes)]) names := by
  induction names with
  | nil => exact .dot .nil
  | cons name rest ih => exact .keep name ih

theorem DropsDots.append {names short rest shorter : List Bytes} (h : DropsDots names short)
    (hrest : DropsDots rest shorter) : DropsDots (names ++ rest) (short ++ shorter) := by
  induction h with
  | nil => exact hrest
  | dot _ ih => exact .dot ih
  | keep name _ ih => exact .keep name ih

theorem dropsDots_steps (path : Path) : DropsDots path.steps path.names := by
  unfold Path.steps
  split
  · exact .last _
  · exact .refl _

/-- Where names stop, and where they stop without some of their dots. Names that lead nowhere may
stop anywhere else. -/
inductive StopsAlike : Stop → Stop → Prop
  | place (place : Place) : StopsAlike (.place place) (.place place)
  | fault (error : OsError) (other : Stop) : StopsAlike (.fault error) other
  | link (directory : Location) (target : Bytes) {rest shorter : List Bytes}
      (h : DropsDots rest shorter) :
      StopsAlike (.link directory target rest) (.link directory target shorter)

/-- Dots do not matter where names lead to a place. -/
theorem follow_dropsDots (fs : FileSystem) {names short : List Bytes}
    (h : DropsDots names short) (here : Location) :
    StopsAlike (fs.follow true here names) (fs.follow true here short) := by
  induction h generalizing here with
  | nil => exact .place _
  | dot _ ih =>
    rw [follow, if_pos rfl]
    split
    · exact .fault _ _
    · exact ih here
  | @keep name rest shorter hrest ih =>
    by_cases hcurrent : name = "."
    · rw [follow, follow, if_pos hcurrent, if_pos hcurrent]
      split
      · exact .fault _ _
      · exact ih here
    by_cases hparent : name = ".."
    · rw [follow, follow, if_neg hcurrent, if_neg hcurrent, if_pos hparent, if_pos hparent]
      split
      · exact .fault _ _
      · exact ih here.dropLast
    rw [follow_name hcurrent hparent, follow_name hcurrent hparent]
    split
    · exact .fault _ _
    split
    · exact .fault _ _
    rcases fs.get? (here ++ [name]) with _ | ⟨content, permissions⟩ | permissions | target
    · cases hrest with
      | nil => exact .place _
      | _ => exact .fault _ _
    · cases hrest with
      | nil => exact .place _
      | _ => exact .fault _ _
    · exact ih _
    · simp only [Bool.not_true, Bool.false_eq_true, and_false, if_false]
      exact .link here target hrest

/-- Without dots names lead to the same place, through the same links. -/
theorem locate_dropsDots {links : Nat} {here : Location} {names short : List Bytes}
    {place : Place} (hdots : DropsDots names short)
    (h : fs.locate true links here names = .ok place) :
    fs.locate true links here short = .ok place := by
  have hstop := follow_dropsDots fs hdots here
  unfold locate at h ⊢
  generalize fs.follow true here names = stop at h hstop
  generalize fs.follow true here short = other at hstop ⊢
  cases hstop with
  | place => exact h
  | fault => cases h
  | link directory target hshorter =>
    cases links with
    | zero => cases h
    | succ links =>
      by_cases hempty : target = .empty
      · simp [hempty] at h
      · simp only [if_neg hempty] at h ⊢
        exact locate_dropsDots ((DropsDots.refl _).append hshorter) h
termination_by links

/-- What a dot stands behind is a directory. -/
theorem follow_dot {here : Location} {names : List Bytes} :
    (∀ place, fs.follow true here (names ++ [("." : Bytes)]) = .place place →
      ∃ location permissions, place = .found location (.directory permissions)) ∧
    ∀ directory target rest,
      fs.follow true here (names ++ [("." : Bytes)]) = .link directory target rest →
      ∃ left, rest = left ++ [("." : Bytes)] := by
  have hsome : ∀ rest : List Bytes, (rest ++ [("." : Bytes)]).isEmpty = false := by simp
  fun_induction fs.follow true here names
  all_goals grind [follow]

theorem locate_dot {links : Nat} {here : Location} {names : List Bytes} {place : Place}
    (h : fs.locate true links here (names ++ [("." : Bytes)]) = .ok place) :
    ∃ location permissions, place = .found location (.directory permissions) := by
  obtain ⟨_, _, ⟨before, rfl⟩, hfollow⟩ :=
    locate_place (P := fun names => ∃ before, names = before ++ [("." : Bytes)])
      (fun here names directory target rest hnames hlink => by
        obtain ⟨before, rfl⟩ := hnames
        obtain ⟨left, rfl⟩ := follow_dot.2 directory target rest hlink
        exact ⟨_, (List.append_assoc ..).symm⟩)
      ⟨names, rfl⟩ h
  exact follow_dot.1 _ hfollow

end CallSift.FileSystem
