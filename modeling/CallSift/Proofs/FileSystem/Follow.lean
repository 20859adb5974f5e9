import CallSift.Proofs.FileSystem.Tree

/-!
# Where names lead in a tree

One name leads to what stands under it. Names that are followed through links may leave
a tree and come back, but when they end at a directory of the tree one stands there.

* `locate_name`: a name that is not followed further.
* `locate_missing`: a free place.
* `locate_directory`: a directory that names lead to.
* `directory?_grown`: a path to a free place leads to the directory made there.
-/
namespace CallSift

namespace FileSystem

variable {fs : FileSystem} {here : Location}

/-- What a location is as a place. -/
def placeAt (fs : FileSystem) (location : Location) : Place :=
  match fs.get? location with
  | some entry => .found location entry
  | none => .missing location

theorem permissionsAt_of_get? {location : Location} {entry : Entry}
    (h : fs.get? location = some entry) : fs.permissionsAt location = entry.permissions := by
  simp [permissionsAt, h]

/-- Following a name: it is looked up in a directory that may be entered. -/
theorem follow_name {name : Bytes} (hcurrent : name ≠ ".") (hparent : name ≠ "..") (last : Bool)
    (rest : List Bytes) :
    fs.follow last here (name :: rest) =
      if !(fs.permissionsAt here).enter then .fault .permissionDenied
      else if nameLimit < name.size then .fault .nameTooLong
      else
        match fs.get? (here ++ [name]) with
        | none => if rest.isEmpty then .place (.missing (here ++ [name])) else .fault .notFound
        | some (.directory _) => fs.follow last (here ++ [name]) rest
        | some (.file content permissions) =>
          if rest.isEmpty then .place (.found (here ++ [name]) (.file content permissions))
          else .fault .notDirectory
        | some (.link target) =>
          if rest.isEmpty ∧ !last then .place (.found (here ++ [name]) (.link target))
          else .link here target rest := by
  have hname : ∀ step : Stop, (if name = "." then fs.follow last here rest else
      if name = ".." then fs.follow last here.dropLast rest else step) = step := by
    intro step
    rw [if_neg hcurrent, if_neg hparent]
  exact congrArg (ite _ _) (hname _)

theorem follow_last (fs : FileSystem) (here : Location) {name : Bytes} (hname : IsName name) :
    (∃ error, fs.follow false here [name] = .fault error) ∨
      fs.follow false here [name] = .place (fs.placeAt (here ++ [name])) := by
  rw [follow_name hname.notCurrent hname.notParent]
  unfold placeAt
  split
  · exact .inl ⟨_, rfl⟩
  · split
    · exact .inl ⟨_, rfl⟩
    · cases hentry : fs.get? (here ++ [name]) with
      | none => exact .inr rfl
      | some entry =>
        cases entry with
        | directory permissions =>
          refine .inr ?_
          rw [follow, permissionsAt_of_get? hentry]
          rfl
        | file | link => exact .inr rfl

/-- A name leads to what stands under it, if it leads anywhere. -/
theorem locate_name {name : Bytes} (hname : IsName name) {links : Nat} {place : Place}
    (h : fs.locate false links here [name] = .ok place) : place = fs.placeAt (here ++ [name]) := by
  unfold locate at h
  rcases follow_last fs here hname with ⟨error, hfault⟩ | hplace
  · rw [hfault] at h
    cases h
  · rw [hplace] at h
    exact (Except.ok.inj h).symm

/-- Nothing stands at a free place. -/
theorem follow_missing {last : Bool} {location : Location} {names : List Bytes}
    (h : fs.follow last here names = .place (.missing location)) : fs.get? location = none := by
  fun_induction fs.follow last here names
  all_goals grind

/-- Names that lead through links end with names that lead through none, which have what the names
had and every link hands on. -/
theorem locate_place {P : List Bytes → Prop} {last : Bool}
    (hlink : ∀ here names directory target rest, P names →
      fs.follow last here names = .link directory target rest →
      P ((Path.mk target).steps ++ rest))
    {links : Nat} {here : Location} {names : List Bytes} {place : Place} (hnames : P names)
    (h : fs.locate last links here names = .ok place) :
    ∃ here names, P names ∧ fs.follow last here names = .place place := by
  unfold locate at h
  cases hfollow : fs.follow last here names with
  | place found =>
    rw [hfollow] at h
    exact ⟨here, names, hnames, hfollow.trans (congrArg Stop.place (Except.ok.inj h))⟩
  | fault error => rw [hfollow] at h; cases h
  | link directory target rest =>
    rw [hfollow] at h
    cases links with
    | zero => cases h
    | succ links =>
      by_cases hempty : target = .empty
      · simp [hempty] at h
      · simp only [if_neg hempty] at h
        exact locate_place hlink (hlink _ _ _ _ _ hnames hfollow) h
termination_by links

theorem locate_missing {last : Bool} {links : Nat} {here location : Location}
    {names : List Bytes} (h : fs.locate last links here names = .ok (.missing location)) :
    fs.get? location = none := by
  obtain ⟨_, _, -, hfollow⟩ :=
    locate_place (P := fun _ => True) (fun _ _ _ _ _ _ _ => trivial) trivial h
  exact follow_missing hfollow

end FileSystem

/-- A directory at which names stop stands there, unless it is outside the tree. -/
def Stop.IsGrounded (fs : FileSystem) (top : Location) : Stop → Prop
  | .place (.found location (.directory _)) => top <+: location → fs.IsDirectory location
  | .link directory _ _ => top <+: directory → fs.IsDirectory directory
  | _ => True

namespace FileSystem

variable {fs grown : FileSystem} {top : Location}

theorem follow_isGrounded (htree : fs.IsTree top) : ∀ (names : List Bytes) (here : Location),
    (top <+: here → fs.IsDirectory here) → (fs.follow true here names).IsGrounded fs top
  | [], here, h => h
  | name :: rest, here, h => by
    by_cases hcurrent : name = "."
    · rw [follow, if_pos hcurrent]
      split
      · trivial
      · exact follow_isGrounded htree rest here h
    by_cases hparent : name = ".."
    · rw [follow, if_neg hcurrent, if_pos hparent]
      split
      · trivial
      · refine follow_isGrounded htree rest here.dropLast fun hbelow => ?_
        exact htree.isDirectory_dropLast hbelow (h (hbelow.trans (List.dropLast_prefix here)))
    rw [follow_name hcurrent hparent]
    split
    · trivial
    split
    · trivial
    cases hentry : fs.get? (here ++ [name]) with
    | none => cases rest <;> trivial
    | some entry =>
      cases entry with
      | directory permissions =>
        exact follow_isGrounded htree rest _ fun _ => ⟨permissions, hentry⟩
      | file => cases rest <;> trivial
      | link target =>
        simp only [Bool.not_true, Bool.false_eq_true, and_false, if_false]
        exact h

/-- A directory that names lead to stands there, if it is in the tree. -/
theorem locate_directory (htree : fs.IsTree top) {links : Nat} {here : Location}
    {names : List Bytes} {location : Location} {permissions : Permissions}
    (hhere : top <+: here → fs.IsDirectory here)
    (h : fs.locate true links here names = .ok (.found location (.directory permissions)))
    (hlocation : top <+: location) : fs.IsDirectory location := by
  have hstop := follow_isGrounded htree names here hhere
  unfold locate at h
  cases hfollow : fs.follow true here names with
  | place place =>
    rw [hfollow] at h hstop
    obtain rfl := Except.ok.inj h
    exact hstop hlocation
  | fault error => rw [hfollow] at h; cases h
  | link directory target rest =>
    rw [hfollow] at h hstop
    cases links with
    | zero => cases h
    | succ links =>
      by_cases hempty : target = .empty
      · simp [hempty] at h
      · simp only [if_neg hempty] at h
        refine locate_directory htree ?_ h hlocation
        split
        · exact fun _ => isDirectory_root
        · exact hstop
termination_by links

/-! ## A path to a new directory -/

section
variable {top : Location} (hfree : fs.occupies top = false) (htop : top ≠ [])
  (hsame : ∀ other, ¬ top <+: other → grown.get? other = fs.get? other)
include hfree htop hsame

/-- Names that lead to a free place lead to what has come to stand there since. On the way they
pass nothing but what stood before. -/
theorem follow_grown (hstands : grown.IsDirectory top) : ∀ {names : List Bytes} {here : Location},
    ¬ top <+: here →
    (fs.follow false here names = .place (.missing top) →
      grown.follow true here names =
        .place (.found top (.directory (grown.permissionsAt top)))) ∧
    ∀ directory target rest, fs.follow false here names = .link directory target rest →
      grown.follow true here names = .link directory target rest ∧ ¬ top <+: directory
  | [], here, _ => ⟨nofun, nofun⟩
  | name :: rest, here, hhere => by
    have henter : (grown.permissionsAt here).enter = (fs.permissionsAt here).enter := by
      rw [permissionsAt, permissionsAt, hsame here hhere]
    by_cases hcurrent : name = "."
    · rw [follow, follow, if_pos hcurrent, if_pos hcurrent, henter]
      split
      · exact ⟨nofun, nofun⟩
      · exact follow_grown hstands hhere
    by_cases hparent : name = ".."
    · rw [follow, follow, if_neg hcurrent, if_neg hcurrent, if_pos hparent, if_pos hparent, henter]
      split
      · exact ⟨nofun, nofun⟩
      · exact follow_grown hstands fun hbelow =>
          hhere (hbelow.trans (List.dropLast_prefix here))
    rw [follow_name hcurrent hparent, follow_name hcurrent hparent, henter]
    split
    · exact ⟨nofun, nofun⟩
    split
    · exact ⟨nofun, nofun⟩
    by_cases hbelow : top <+: here ++ [name]
    · obtain rfl : top = here ++ [name] :=
        (List.prefix_concat_iff.mp hbelow).resolve_right hhere
      rw [get?_of_free hfree (List.prefix_refl _) htop]
      obtain ⟨permissions, hdirectory⟩ := hstands
      rw [hdirectory]
      cases rest with
      | nil => exact ⟨fun _ => by rw [follow], nofun⟩
      | cons => exact ⟨nofun, nofun⟩
    · rw [hsame _ hbelow]
      cases fs.get? (here ++ [name]) with
      | none =>
        refine ⟨fun hmissing => ?_, ?_⟩
        · cases rest with
          | nil =>
            obtain rfl := Place.missing.inj (Stop.place.inj hmissing)
            exact absurd (List.prefix_refl _) hbelow
          | cons => cases hmissing
        · cases rest <;> nofun
      | some entry =>
        cases entry with
        | directory permissions => exact follow_grown hstands hbelow
        | file => cases rest <;> exact ⟨nofun, nofun⟩
        | link text =>
          cases rest with
          | nil => exact ⟨nofun, nofun⟩
          | cons =>
            refine ⟨nofun, fun directory target rest hlink => ?_⟩
            obtain ⟨rfl, rfl, rfl⟩ := Stop.link.inj hlink
            exact ⟨rfl, hhere⟩

theorem locate_grown (hstands : grown.IsDirectory top) {links : Nat} {here : Location}
    {names : List Bytes} (hhere : ¬ top <+: here)
    (h : fs.locate false links here names = .ok (.missing top)) :
    grown.locate true links here names =
      .ok (.found top (.directory (grown.permissionsAt top))) := by
  obtain ⟨hmissing, hlink⟩ := follow_grown hfree htop hsame hstands hhere
  unfold locate at h ⊢
  cases hfollow : fs.follow false here names with
  | place place =>
    rw [hfollow] at h
    obtain rfl := Except.ok.inj h
    rw [hmissing hfollow]
  | fault error => rw [hfollow] at h; cases h
  | link directory target rest =>
    rw [hfollow] at h
    obtain ⟨hsameLink, hdirectory⟩ := hlink directory target rest hfollow
    rw [hsameLink]
    cases links with
    | zero => cases h
    | succ links =>
      by_cases hempty : target = .empty
      · simp [hempty] at h
      · simp only [if_neg hempty] at h ⊢
        refine locate_grown hstands ?_ h
        split
        · exact fun hroot => htop (List.prefix_nil.mp hroot)
        · exact hdirectory
termination_by links

theorem directory?_grown (hstands : grown.IsDirectory top) {workingDirectory path : Path}
    (h : fs.resolve false workingDirectory path = .ok (.missing top)) :
    grown.directory? workingDirectory path = some top := by
  have hroot : ¬ top <+: [] := fun hroot => htop (List.prefix_nil.mp hroot)
  have hresolve : grown.resolve true workingDirectory path =
      .ok (.found top (.directory (grown.permissionsAt top))) := by
    unfold resolve locateFrom at h ⊢
    split at h
    · cases h
    split at h
    · cases h
    next hsome hshort =>
    rw [if_neg hsome, if_neg hshort]
    split at h
    · next habsolute =>
      rw [if_pos habsolute]
      exact locate_grown hfree htop hsame hstands hroot h
    · next hrelative =>
      rw [if_neg hrelative]
      exact locate_grown hfree htop hsame hstands hroot h
  simp only [directory?, stat, hresolve]

end

end FileSystem
end CallSift
