import CallSift.FileSystem.Access
import CallSift.Proofs.FileSystem.Dots
import CallSift.Proofs.FileSystem.Subtree

/-!
# Paths below a directory

A path with names behind it leads on from the directory that it leads to. So the files
of a tree are read alike under every directory that holds it, as long as their paths
are not too long.

* `locate_append`: names behind names that lead to a directory.
* `stat_below`: a file of a tree, by its path.
* `readText_below`: its text is the same wherever the tree is held.
-/
namespace CallSift.FileSystem

variable {fs tree : FileSystem}

/-! ## Names behind names -/

theorem follow_append {here location : Location} {names : List Bytes} {permissions : Permissions}
    (h : fs.follow true here names = .place (.found location (.directory permissions)))
    (rest : List Bytes) : fs.follow true here (names ++ rest) = fs.follow true location rest := by
  fun_induction fs.follow true here names
  all_goals grind [follow]

theorem follow_append_link {here directory : Location} {names left : List Bytes} {target : Bytes}
    (h : fs.follow true here names = .link directory target left) (rest : List Bytes) :
    fs.follow true here (names ++ rest) = .link directory target (left ++ rest) := by
  fun_induction fs.follow true here names
  all_goals grind [follow]

/-- Names behind names that lead to a directory lead on from there, if they lead through no link
of their own. -/
theorem locate_append {links : Nat} {here location : Location} {names rest : List Bytes}
    {permissions : Permissions} {outcome : Except OsError Place}
    (h : fs.locate true links here names = .ok (.found location (.directory permissions)))
    (hrest : ∀ links, fs.locate true links location rest = outcome) :
    fs.locate true links here (names ++ rest) = outcome := by
  unfold locate at h
  cases hfollow : fs.follow true here names with
  | place place =>
    rw [hfollow] at h
    obtain rfl := Except.ok.inj h
    rw [← hrest links]
    unfold locate
    rw [follow_append hfollow]
  | fault error => rw [hfollow] at h; cases h
  | link directory target left =>
    rw [hfollow] at h
    cases links with
    | zero => cases h
    | succ links =>
      by_cases hempty : target = .empty
      · simp [hempty] at h
      · simp only [if_neg hempty] at h
        unfold locate
        simp only [follow_append_link hfollow, if_neg hempty]
        rw [← List.append_assoc]
        exact locate_append h hrest
termination_by links

/-! ## Paths -/

/-- The names that are followed before those of a path. -/
def start (workingDirectory path : Path) : List Bytes :=
  if path.isAbsolute then [] else workingDirectory.steps

theorem resolve_eq {last : Bool} {workingDirectory path : Path} (hsome : path.bytes ≠ .empty)
    (hshort : path.bytes.size < pathLimit) :
    fs.resolve last workingDirectory path =
      fs.locate last linkLimit [] (start workingDirectory path ++ path.steps) := by
  rw [resolve, locateFrom, if_neg hsome, if_neg (Nat.not_le.mpr hshort), start]
  split <;> rfl

theorem resolve_eq_ok {last : Bool} {workingDirectory path : Path} {place : Place}
    (h : fs.resolve last workingDirectory path = .ok place) :
    path.bytes ≠ .empty ∧ path.bytes.size < pathLimit ∧
      fs.locate last linkLimit [] (start workingDirectory path ++ path.steps) = .ok place := by
  have hsome : path.bytes ≠ .empty := by
    intro hempty
    simp [resolve, locateFrom, hempty] at h
  have hshort : path.bytes.size < pathLimit := by
    refine Nat.not_le.mp fun hlong => ?_
    simp [resolve, locateFrom, hsome, hlong] at h
  exact ⟨hsome, hshort, (resolve_eq hsome hshort).symm.trans h⟩

/-- A free place is below the root, and nothing stands there. -/
theorem resolve_missing {last : Bool} {workingDirectory path : Path} {location : Location}
    (h : fs.resolve last workingDirectory path = .ok (.missing location)) :
    location ≠ [] ∧ fs.get? location = none := by
  obtain ⟨-, -, hlocate⟩ := resolve_eq_ok h
  have hnone := locate_missing hlocate
  refine ⟨?_, hnone⟩
  rintro rfl
  cases hnone

section
variable {workingDirectory path : Path} {top : Location}

theorem stat_eq_ok {location : Location} {entry : Entry} :
    fs.stat workingDirectory path = .ok (location, entry) ↔
      fs.resolve true workingDirectory path = .ok (.found location entry) := by
  rw [stat]
  rcases fs.resolve true workingDirectory path with error | (⟨found, standing⟩ | free)
  · simp
  · simp
  · simp

theorem stat_of_directory? (h : fs.directory? workingDirectory path = some top) :
    ∃ permissions, fs.stat workingDirectory path = .ok (top, .directory permissions) := by
  unfold directory? at h
  split at h
  · next permissions hstat =>
    obtain rfl := Option.some.inj h
    exact ⟨permissions, hstat⟩
  · cases h

theorem exists?_of_directory? (h : fs.directory? workingDirectory path = some top) :
    fs.exists? workingDirectory path = true := by
  obtain ⟨permissions, hstat⟩ := stat_of_directory? h
  rw [exists?, hstat]
  rfl

end

theorem directory?_eq_some {workingDirectory path : Path} {location : Location}
    (h : fs.directory? workingDirectory path = some location) : path.bytes ≠ .empty ∧
      path.bytes.size < pathLimit ∧ ∃ permissions,
        fs.locate true linkLimit [] (start workingDirectory path ++ path.names) =
          .ok (.found location (.directory permissions)) := by
  obtain ⟨permissions, hstat⟩ := stat_of_directory? h
  obtain ⟨hsome, hshort, hplace⟩ := resolve_eq_ok (stat_eq_ok.mp hstat)
  refine ⟨hsome, hshort, ?_⟩
  refine ⟨permissions, ?_⟩
  unfold Path.steps at hplace
  split at hplace
  · rw [← List.append_assoc] at hplace
    exact locate_dropsDots (.last _) hplace
  · exact hplace

/-- A path that is too long leads nowhere, whatever it names. -/
theorem readText_long {workingDirectory path : Path}
    (h : pathLimit ≤ path.bytes.size) :
    fs.readText workingDirectory path = .error (.os .nameTooLong) := by
  have hsome : path.bytes ≠ .empty := by
    intro hempty
    rw [hempty] at h
    exact absurd h (by decide)
  simp [readText, read, stat, resolve, locateFrom, hsome, h]

/-- A path below a directory leads where its names lead from there. -/
theorem resolve_below {workingDirectory place : Path} {top : Location} {names : List Bytes}
    (hplace : fs.directory? workingDirectory place = some top)
    (hnames : ∀ name ∈ names, IsName name) (hsome : names ≠ [])
    (hshort : (below place names).bytes.size < pathLimit)
    {outcome : Except OsError Place} (h : ∀ links, fs.locate true links top names = outcome) :
    fs.resolve true workingDirectory (below place names) = outcome := by
  obtain ⟨htext, -, before, hlocate⟩ := directory?_eq_some hplace
  have hstart : start workingDirectory (below place names) = start workingDirectory place := by
    rw [start, start, isAbsolute_below hnames htext]
  rw [resolve_eq (bytes_below_ne hnames htext) hshort, hstart, steps_below hnames htext hsome,
    ← List.append_assoc]
  exact locate_append hlocate h

/-! ## The files of a tree -/

section
variable {top : Location} {workingDirectory place : Path} {names : Location}
  {content : ByteArray} {permissions : Permissions} (hholds : fs.Holds top tree)
  (htree : tree.IsTree []) (hplace : fs.directory? workingDirectory place = some top)
  (hsome : names ≠ []) (hfile : tree.get? names = some (.file content permissions))
  (hshort : (below place names).bytes.size < pathLimit)
include hholds htree hplace hsome hfile hshort

/-- A path below a directory leads to a file of the tree if the names of the file do. -/
theorem stat_below :
    (∃ error, tree.follow true [] names = .fault error ∧
        fs.stat workingDirectory (below place names) = .error error) ∨
      tree.follow true [] names = .place (.found names (.file content permissions)) ∧
        fs.stat workingDirectory (below place names) =
          .ok (top ++ names, .file content permissions) := by
  have hnames := htree.isName hsome hfile
  have hfollow : fs.follow true (top ++ []) names = (tree.follow true [] names).inside top :=
    follow_holds hholds hnames (.inr hsome)
  rw [List.append_nil] at hfollow
  have hfrom : tree.get? ([] ++ names) = some (.file content permissions) := hfile
  rcases follow_file htree hsome hfrom with ⟨error, hfault⟩ | hfound
  · refine .inl ⟨error, hfault, ?_⟩
    have herror : fs.resolve true workingDirectory (below place names) = .error error := by
      refine resolve_below hplace hnames hsome hshort fun links => ?_
      rw [locate, hfollow, hfault]
      rfl
    rw [stat, herror]
  · refine .inr ⟨hfound, stat_eq_ok.mpr (resolve_below hplace hnames hsome hshort fun links => ?_)⟩
    rw [locate, hfollow, hfound]
    rfl

end

/-- A path leads to a directory that holds a tree. -/
structure Reaches (fs : FileSystem) (workingDirectory place : Path) (top : Location)
    (tree : FileSystem) : Prop where
  leads : fs.directory? workingDirectory place = some top
  holds : fs.Holds top tree

/-- The path of no file in a tree is too long when the tree is held in a place. -/
def FitsIn (tree : FileSystem) (place : Path) : Prop :=
  ∀ names ∈ tree.filesBelow [], (below place names).bytes.size < pathLimit

theorem mem_filesBelow {names : Location} (h : names ∈ tree.filesBelow []) :
    ∃ content permissions, (names, .file content permissions) ∈ tree.entries := by
  obtain ⟨⟨location, entry⟩, hmem, hsome⟩ := List.mem_filterMap.mp h
  cases entry with
  | file content permissions =>
    simp only at hsome
    split at hsome
    · obtain rfl := Option.some.inj hsome
      exact ⟨content, permissions, hmem⟩
    · cases hsome
  | directory | link => cases hsome

section
variable {top : Location} {workingDirectory place : Path}
  (h : fs.Reaches workingDirectory place top tree)
include h

theorem Reaches.file {names : Location} (hnames : names ∈ tree.filesBelow []) :
    names ≠ [] ∧ ∃ content permissions, tree.get? names = some (.file content permissions) := by
  obtain ⟨content, permissions, hmem⟩ := mem_filesBelow hnames
  have hsome : names ≠ [] := by
    rw [← h.holds.subtree] at hmem
    exact (mem_subtree.mp hmem).1
  exact ⟨hsome, content, permissions, (get?_eq_some_iff hsome).mpr hmem⟩

/-- A walk comes by all files whose paths are not too long. -/
theorem Reaches.walked (htree : tree.IsTree []) (hfits : tree.FitsIn place) :
    (tree.filesBelow []).filter (isWalked place) = tree.filesBelow [] := by
  refine List.filter_eq_self.mpr fun names hnames => ?_
  obtain ⟨hsome, content, permissions, hfile⟩ := h.file hnames
  have hdirectory := size_below_dropLast (htree.isName hsome hfile) place
  exact decide_eq_true (Nat.lt_of_le_of_lt hdirectory (hfits names hnames))

/-- A file is read alike wherever its tree is held. -/
theorem readText_below {other : FileSystem} {otherDirectory otherPlace : Path} {otherTop : Location}
    (hother : other.Reaches otherDirectory otherPlace otherTop tree) (htree : tree.IsTree [])
    (hfits : tree.FitsIn place) (hotherFits : tree.FitsIn otherPlace)
    {names : Location} (hnames : names ∈ tree.filesBelow []) :
    other.readText otherDirectory (below otherPlace names) =
      fs.readText workingDirectory (below place names) := by
  obtain ⟨hsome, content, permissions, hfile⟩ := h.file hnames
  have hstat := stat_below h.holds htree h.leads hsome hfile (hfits names hnames)
  have hotherStat := stat_below hother.holds htree hother.leads hsome hfile
    (hotherFits names hnames)
  unfold readText read
  rcases hstat with ⟨error, hfollow, hstat⟩ | ⟨hfollow, hstat⟩
  · rcases hotherStat with ⟨same, hsame, hotherStat⟩ | ⟨hsame, -⟩
    · obtain rfl := Stop.fault.inj (hsame.symm.trans hfollow)
      rw [hstat, hotherStat]
    · cases hsame.symm.trans hfollow
  · rcases hotherStat with ⟨same, hsame, -⟩ | ⟨-, hotherStat⟩
    · cases hsame.symm.trans hfollow
    · rw [hstat, hotherStat]

end

end CallSift.FileSystem
