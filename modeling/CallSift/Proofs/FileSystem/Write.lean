import CallSift.FileSystem.Access
import CallSift.Proofs.FileSystem.Below

/-!
# Writing a file

A path can be written to when it leads to a file that may be written, or to a free place
in a directory that may be changed. A file that is written changes what stands at its
location. Paths lead where they led before, those to a free place now to the file.

* `write_eq_ok`: when a content is written, and what is changed.
* `WritesTo.stat`: the path leads to what has been written.
* `stat_insert`: what paths to files lead to afterwards.
* `WritesTo.insert`: what could be written to still can.
-/
namespace CallSift

/-- What a place has become when a file stands at a location that was free or held a file. -/
def Place.written (target : Location) (file : Entry) (place : Place) : Place :=
  match place with
  | .found other (.file ..) | .missing other => if other = target then .found target file else place
  | .found .. => place

def Stop.written (target : Location) (file : Entry) : Stop → Stop
  | .place found => .place (found.written target file)
  | .fault error => .fault error
  | .link directory text rest => .link directory text rest

namespace FileSystem

variable {fs : FileSystem}

/-! ## Where names lead afterwards -/

/-- A file with these permissions stands at a location, or can come to stand there. -/
def Accepts (fs : FileSystem) (target : Location) (permissions : Permissions) : Prop :=
  (∃ content, fs.get? target = some (.file content permissions)) ∨
    fs.get? target = none ∧ permissions = .all

section
variable {target : Location} {permissions : Permissions} (h : fs.Accepts target permissions)
  (content : ByteArray)
include h

theorem Accepts.ne_root : target ≠ [] := by
  rintro rfl
  rcases h with ⟨old, hfile⟩ | ⟨hfree, -⟩
  · cases hfile
  · cases hfree

theorem Accepts.get?_insert (other : Location) :
    (fs.insert target (.file content permissions)).get? other =
      if other = target then some (.file content permissions) else fs.get? other :=
  FileSystem.get?_insert h.ne_root _ other

theorem Accepts.permissionsAt_insert (other : Location) :
    (fs.insert target (.file content permissions)).permissionsAt other =
      fs.permissionsAt other := by
  rw [permissionsAt, h.get?_insert, permissionsAt]
  split
  · next heq =>
    subst heq
    rcases h with ⟨old, hfile⟩ | ⟨hfree, rfl⟩
    · rw [hfile]
      rfl
    · rw [hfree]
      rfl
  · rfl

/-- Names lead to the same places. Only where there was none behind a free place, there is none
behind a file now. -/
theorem Accepts.follow_insert (last : Bool) (here : Location) (names : List Bytes) :
    (∃ error, fs.follow last here names = .fault error) ∨
      (fs.insert target (.file content permissions)).follow last here names =
        (fs.follow last here names).written target (.file content permissions) := by
  have hget := h.get?_insert content
  have hpermissions := h.permissionsAt_insert content
  fun_induction fs.follow last here names
  all_goals grind [follow, Accepts, Stop.written, Place.written]

theorem Accepts.locate_insert {last : Bool} {links : Nat} {here : Location}
    {names : List Bytes} {place : Place} (hplace : fs.locate last links here names = .ok place) :
    (fs.insert target (.file content permissions)).locate last links here names =
      .ok (place.written target (.file content permissions)) := by
  unfold locate at hplace ⊢
  rcases h.follow_insert content last here names with ⟨error, hfault⟩ | hfollow
  · rw [hfault] at hplace
    cases hplace
  rw [hfollow]
  cases hstop : fs.follow last here names with
  | fault error => rw [hstop] at hplace; cases hplace
  | place found =>
    rw [hstop] at hplace
    obtain rfl := Except.ok.inj hplace
    rfl
  | link directory text rest =>
    rw [hstop] at hplace
    cases links with
    | zero => cases hplace
    | succ links =>
      by_cases hempty : text = .empty
      · simp [hempty] at hplace
      · simp only [Stop.written, if_neg hempty] at hplace ⊢
        exact Accepts.locate_insert hplace
termination_by links

theorem Accepts.resolve_insert {last : Bool} {workingDirectory path : Path} {place : Place}
    (hplace : fs.resolve last workingDirectory path = .ok place) :
    (fs.insert target (.file content permissions)).resolve last workingDirectory path =
      .ok (place.written target (.file content permissions)) := by
  obtain ⟨hsome, hshort, hlocate⟩ := resolve_eq_ok hplace
  rw [resolve_eq hsome hshort]
  exact h.locate_insert content hlocate

/-- A path to a file leads to its new content, if it is the one that was written. -/
theorem Accepts.stat_insert {workingDirectory path : Path} {location : Location}
    {old : ByteArray} {kept : Permissions}
    (hstat : fs.stat workingDirectory path = .ok (location, .file old kept)) :
    (fs.insert target (.file content permissions)).stat workingDirectory path =
      .ok (location, if location = target then .file content permissions else .file old kept) := by
  refine stat_eq_ok.mpr ((h.resolve_insert content (stat_eq_ok.mp hstat)).trans ?_)
  unfold Place.written
  by_cases heq : location = target
  · simp [heq]
  · simp [heq]

end

/-! ## Files -/

/-- A file that names lead to stands there. -/
theorem follow_found_file {last : Bool} {here location : Location} {names : List Bytes}
    {content : ByteArray} {permissions : Permissions}
    (h : fs.follow last here names = .place (.found location (.file content permissions))) :
    fs.get? location = some (.file content permissions) := by
  fun_induction fs.follow last here names
  all_goals grind

theorem resolve_file {last : Bool} {workingDirectory path : Path} {location : Location}
    {content : ByteArray} {permissions : Permissions}
    (h : fs.resolve last workingDirectory path =
      .ok (.found location (.file content permissions))) :
    fs.get? location = some (.file content permissions) := by
  obtain ⟨-, -, hlocate⟩ := resolve_eq_ok h
  obtain ⟨_, _, -, hfollow⟩ :=
    locate_place (P := fun _ => True) (fun _ _ _ _ _ _ _ => trivial) trivial hlocate
  exact follow_found_file hfollow

/-! ## Writing -/

/-- A path leads to where a file can be written, which then has these permissions. -/
structure WritesTo (fs : FileSystem) (workingDirectory path : Path) (target : Location)
    (permissions : Permissions) : Prop where
  notDirectory : namesDirectory path = false
  leads :
    (∃ content, fs.resolve true workingDirectory path =
      .ok (.found target (.file content permissions)) ∧ permissions.write = true) ∨
    fs.resolve true workingDirectory path = .ok (.missing target) ∧
      (fs.permissionsAt target.dropLast).canChange = true ∧ permissions = .all

/-- Something can be written under a path. -/
def IsWritable (fs : FileSystem) (workingDirectory path : Path) : Prop :=
  ∃ target permissions, fs.WritesTo workingDirectory path target permissions

section
variable {workingDirectory path : Path} {content : ByteArray}

/-- A content is written if the path leads to where a file can be written, and nothing else is
changed. -/
theorem write_eq_ok {after : FileSystem} :
    fs.write workingDirectory path content = .ok after ↔
      ∃ target permissions, fs.WritesTo workingDirectory path target permissions ∧
        after = fs.insert target (.file content permissions) := by
  unfold write
  constructor
  · intro h
    split at h
    · split at h <;> cases h
    next hdirectory =>
    have hnot := Bool.eq_false_iff.mpr hdirectory
    split at h
    · cases h
    · next target hresolve =>
      unfold make at h
      split at h
      · next hchange =>
        exact ⟨target, .all, ⟨hnot, .inr ⟨hresolve, hchange, rfl⟩⟩, (Except.ok.inj h).symm⟩
      · cases h
    · next target old permissions hresolve =>
      split at h
      · next hwrite =>
        exact ⟨target, permissions, ⟨hnot, .inl ⟨old, hresolve, hwrite⟩⟩,
          (Except.ok.inj h).symm⟩
      · cases h
    · cases h
  · rintro ⟨target, permissions, ⟨hnot, ⟨old, hresolve, hwrite⟩ | ⟨hresolve, hchange, rfl⟩⟩, rfl⟩
    · simp [hnot, hresolve, hwrite]
    · simp [hnot, hresolve, make, hchange]

theorem write_isOk :
    (∃ after, fs.write workingDirectory path content = .ok after) ↔
      fs.IsWritable workingDirectory path := by
  refine ⟨fun ⟨after, h⟩ => ?_, fun ⟨target, permissions, h⟩ => ⟨_, write_eq_ok.mpr ⟨_, _, h, rfl⟩⟩⟩
  obtain ⟨target, permissions, hwrites, -⟩ := write_eq_ok.mp h
  exact ⟨target, permissions, hwrites⟩

/-- A file that may be written can be. No such file is found under a path that asks for a
directory. -/
theorem writesTo_of_stat {target : Location} {old : ByteArray} {permissions : Permissions}
    (h : fs.stat workingDirectory path = .ok (target, .file old permissions))
    (hwrite : permissions.write = true) :
    fs.WritesTo workingDirectory path target permissions := by
  have hresolve := stat_eq_ok.mp h
  refine ⟨?_, .inl ⟨old, hresolve, hwrite⟩⟩
  obtain ⟨-, -, hlocate⟩ := resolve_eq_ok hresolve
  rw [namesDirectory, Bool.and_eq_false_iff]
  refine .inl (Bool.eq_false_iff.mpr fun hslash => ?_)
  rw [Path.steps, if_pos hslash, ← List.append_assoc] at hlocate
  obtain ⟨_, _, hdirectory⟩ := locate_dot hlocate
  cases hdirectory

namespace WritesTo

variable {target : Location} {permissions : Permissions}
  (h : fs.WritesTo workingDirectory path target permissions)
include h

theorem accepts : fs.Accepts target permissions := by
  rcases h.leads with ⟨old, hresolve, -⟩ | ⟨hresolve, -, rfl⟩
  · exact .inl ⟨old, resolve_file hresolve⟩
  · exact .inr ⟨(resolve_missing hresolve).2, rfl⟩

theorem write : permissions.write = true := by
  rcases h.leads with ⟨old, -, hwrite⟩ | ⟨-, -, rfl⟩
  · exact hwrite
  · rfl

/-- The path leads to what has been written. -/
theorem stat (content : ByteArray) :
    (fs.insert target (.file content permissions)).stat workingDirectory path =
      .ok (target, .file content permissions) := by
  refine stat_eq_ok.mpr ?_
  rcases h.leads with ⟨old, hresolve, -⟩ | ⟨hresolve, -, -⟩
  · exact (h.accepts.resolve_insert content hresolve).trans (by simp [Place.written])
  · exact (h.accepts.resolve_insert content hresolve).trans (by simp [Place.written])

/-- What can be written to still can after another file has been written. -/
theorem insert {other : Location} {otherPermissions : Permissions}
    (hother : fs.Accepts other otherPermissions) (hwrite : otherPermissions.write = true)
    (content : ByteArray) :
    (fs.insert other (.file content otherPermissions)).IsWritable workingDirectory path := by
  have hsame := hother.permissionsAt_insert content
  by_cases heq : target = other
  · refine ⟨target, otherPermissions, h.notDirectory, .inl ⟨content, ?_, hwrite⟩⟩
    rcases h.leads with ⟨old, hresolve, -⟩ | ⟨hresolve, -, -⟩
    · exact (hother.resolve_insert content hresolve).trans (by simp [Place.written, heq])
    · exact (hother.resolve_insert content hresolve).trans (by simp [Place.written, heq])
  · refine ⟨target, permissions, h.notDirectory, ?_⟩
    rcases h.leads with ⟨old, hresolve, hmay⟩ | ⟨hresolve, hchange, hall⟩
    · exact .inl ⟨old, (hother.resolve_insert content hresolve).trans
        (by simp [Place.written, heq]), hmay⟩
    · exact .inr ⟨(hother.resolve_insert content hresolve).trans
        (by simp [Place.written, heq]), (hsame _).symm ▸ hchange, hall⟩

end WritesTo

end

end FileSystem
end CallSift
