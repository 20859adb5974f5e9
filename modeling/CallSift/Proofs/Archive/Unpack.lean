import CallSift.Archive.Unpack
import CallSift.Proofs.FileSystem.Follow

/-!
# Unpacking stays below the target

Whatever the members of an archive are called and wherever the links among them lead, a
member is put under a name into a directory of the target's tree. So the tree grows and
nothing outside changes, whether unpacking comes to its end or stops somewhere.

* `makeParents_grown` and `putAt_grown`: the steps of putting a member.
* `run_grown`: all members of an archive.
* `unpackInto_grown`: an archive file, even one that cannot be read.
-/
namespace CallSift

open FileSystem

namespace Unpacking

variable {fs : FileSystem} {top : Location}

theorem names?_isName {path : Path} {names : List Bytes} (h : names? path = some names) :
    ∀ name ∈ names, IsName name := by
  unfold names? at h
  split at h
  · cases h
  · obtain rfl := Option.some.inj h
    intro name hname
    obtain ⟨component, hcomponent, hsome⟩ := List.mem_filterMap.mp hname
    cases component with
    | normal =>
      obtain rfl := Option.some.inj hsome
      exact Path.isName_of_mem_components hcomponent
    | root | current | parent => cases hsome

theorem make_eq_ok {location : Location} {entry : Entry} {grown : FileSystem}
    (h : fs.make location entry = .ok grown) : grown = fs.insert location entry := by
  unfold make at h
  split at h
  · exact (Except.ok.inj h).symm
  · cases h

/-! ## The directories around a member -/

theorem makeParents_grown : ∀ {names : List Bytes} {fs : FileSystem} {here : Location},
    fs.IsTree top → top <+: here → fs.IsDirectory here → (∀ name ∈ names, IsName name) →
    Grown top fs (makeParents top fs here names).1 ∧
      ∀ parent, (makeParents top fs here names).2 = some parent →
        top <+: parent ∧ (makeParents top fs here names).1.IsDirectory parent
  | [], fs, here, htree, hbelow, hhere, _ => by
    refine ⟨.refl htree, fun parent hparent => ?_⟩
    obtain rfl := Option.some.inj hparent
    exact ⟨hbelow, hhere⟩
  | name :: rest, fs, here, htree, hbelow, hhere, hnames => by
    obtain ⟨hname, hrest⟩ := List.forall_mem_cons.mp hnames
    unfold makeParents
    split
    · next location permissions hfound =>
      split
      · next hinside =>
        have hlocation := List.isPrefixOf_iff_prefix.mp hinside
        exact makeParents_grown htree hlocation
          (locate_directory htree (fun _ => hhere) hfound hlocation) hrest
      · exact ⟨.refl htree, nofun⟩
    · split
      · next location _ hlocation =>
        split
        · next grown hmake =>
          obtain rfl := make_eq_ok hmake
          subst hlocation
          have hgrown : Grown top fs (fs.insert (here ++ [name]) (.directory .all)) :=
            .insert htree hbelow hhere hname fun _ => ⟨_, rfl⟩
          have hmade : (fs.insert (here ++ [name]) (.directory .all)).IsDirectory
              (here ++ [name]) :=
            ⟨.all, by rw [get?_insert (by simp), if_pos rfl]⟩
          obtain ⟨hrest, hparent⟩ := makeParents_grown hgrown.tree
            (hbelow.trans (List.prefix_append here [name])) hmade hrest
          exact ⟨hgrown.trans hrest, hparent⟩
        · exact ⟨.refl htree, nofun⟩
      · exact ⟨.refl htree, nofun⟩
    · exact ⟨.refl htree, nofun⟩

/-! ## One member -/

section
variable {parent : Location} {name : Bytes} (htree : fs.IsTree top) (hbelow : top <+: parent)
  (hparent : fs.IsDirectory parent) (hname : IsName name)
include htree hbelow hparent hname

/-- An entry is put where none stands, or one that is no directory. -/
theorem putEntry_grown (entry : Entry) :
    Grown top fs (putEntry fs (fs.placeAt (parent ++ [name])) entry).fileSystem := by
  have hput : ¬ fs.IsDirectory (parent ++ [name]) → ∀ grown,
      fs.make (parent ++ [name]) entry = .ok grown → Grown top fs grown := by
    intro hfree grown hmake
    rw [make_eq_ok hmake]
    exact .insert htree hbelow hparent hname fun hstands => absurd hstands hfree
  unfold putEntry placeAt
  cases hentry : fs.get? (parent ++ [name]) with
  | none =>
    simp only
    split
    · next grown hmake => exact hput (not_isDirectory hentry nofun) grown hmake
    · exact .refl htree
  | some standing =>
    cases standing with
    | directory => exact .refl htree
    | file | link =>
      simp only
      split
      · next grown hmake => exact hput (not_isDirectory hentry nofun) grown hmake
      · exact .refl htree

theorem putFile_grown (permissions : Permissions) (content : ByteArray) (complete : Bool) :
    Grown top fs
      (putFile fs (fs.placeAt (parent ++ [name])) permissions content complete).fileSystem := by
  have hput := putEntry_grown htree hbelow hparent hname (.file content permissions)
  unfold putFile
  split
  · next heq => rwa [heq] at hput
  · exact hput

theorem putDirectory_grown (permissions : Option Permissions) :
    Grown top fs
      (putDirectory fs (fs.placeAt (parent ++ [name])) permissions).fileSystem := by
  have hput := putEntry_grown htree hbelow hparent hname (.directory (permissions.getD .all))
  unfold placeAt at hput ⊢
  cases hentry : fs.get? (parent ++ [name]) with
  | none =>
    rw [hentry] at hput
    exact hput
  | some standing =>
    cases standing with
    | directory before => exact .insert htree hbelow hparent hname fun _ => ⟨_, rfl⟩
    | file | link => exact .refl htree

theorem putLink_grown (link : Bytes) :
    Grown top fs (putLink fs (fs.placeAt (parent ++ [name])) link).fileSystem := by
  unfold putLink
  split
  · exact .refl htree
  · exact putEntry_grown htree hbelow hparent hname (.link link)

theorem putHardLink_grown (link : Bytes) :
    Grown top fs (putHardLink top fs (fs.placeAt (parent ++ [name])) link).fileSystem := by
  unfold putHardLink
  split
  · exact .refl htree
  · split
    · next entry hplace _ => exact hplace ▸ putEntry_grown htree hbelow hparent hname entry
    · exact .refl htree
    · exact .refl htree

theorem putAt_grown (member : Tar.Member) :
    Grown top fs (putAt top fs (fs.placeAt (parent ++ [name])) member).fileSystem := by
  unfold putAt
  cases member.role with
  | file => exact putFile_grown htree hbelow hparent hname _ _ _
  | directory => exact putDirectory_grown htree hbelow hparent hname _
  | link link =>
    cases link with
    | none => exact .refl htree
    | some link => exact putLink_grown htree hbelow hparent hname link
  | hardLink link =>
    cases link with
    | none => exact .refl htree
    | some link => exact putHardLink_grown htree hbelow hparent hname link
  | description => exact .refl htree

theorem putIn_grown (member : Tar.Member) :
    Grown top fs (putIn top fs parent name member).fileSystem := by
  unfold putIn
  split
  · exact .refl htree
  · split
    · next place hplace =>
      rw [locate_name hname hplace]
      exact putAt_grown htree hbelow hparent hname member
    · exact .refl htree

end

theorem put_grown (htree : fs.IsTree top) (member : Tar.Member) :
    Grown top fs (put top fs member).fileSystem := by
  unfold put
  split
  · exact .refl htree
  next names hnames =>
  have hnamed := names?_isName hnames
  split
  · exact .refl htree
  next name hlast =>
  split
  · exact .refl htree
  have hname : IsName name := hnamed name (List.mem_of_mem_getLast? hlast)
  obtain ⟨hgrown, hparents⟩ := makeParents_grown htree (List.prefix_refl top) htree.stands
    fun other hother => hnamed other (List.dropLast_subset names hother)
  split
  · next heq => rwa [heq] at hgrown
  · next grown parent heq =>
    rw [heq] at hgrown hparents
    obtain ⟨hbelow, hparent⟩ := hparents parent rfl
    exact hgrown.trans (putIn_grown hgrown.tree hbelow hparent hname member)

/-! ## All members -/

theorem putAll_grown : ∀ (members : List Tar.Member) {fs : FileSystem}, fs.IsTree top →
    Grown top fs (putAll top fs members).fileSystem
  | [], fs, htree => .refl htree
  | member :: rest, fs, htree => by
    have hfirst := put_grown htree member
    unfold putAll
    split
    · next grown heq =>
      rw [heq] at hfirst
      exact hfirst.trans (putAll_grown rest hfirst.tree)
    · exact hfirst

/-- The members of an archive make the tree grow, up to the first that cannot be put. -/
theorem run_grown (htree : fs.IsTree top) (members : Tar.Members) :
    Grown top fs (run top fs members).fileSystem := by
  have hearly := putAll_grown (members.members.filter (!isLate ·)) htree
  unfold run
  split
  · next grown heq =>
    rw [heq] at hearly
    split
    · exact hearly
    · exact hearly.trans (putAll_grown (late members.members) hearly.tree)
  · exact hearly

end Unpacking

namespace FileSystem

variable {fs : FileSystem}

theorem unpackInto_grown {top : Location} (htree : fs.IsTree top) (setting : Setting) (path : Path)
    (kind : ArchiveKind) : Grown top fs (fs.unpackInto setting path kind top).1 := by
  unfold unpackInto
  split
  · exact .refl htree
  split
  · exact .refl htree
  next members _ =>
  have hrun := Unpacking.run_grown htree members
  split
  · next grown heq => rwa [heq] at hrun
  · next grown damage heq => rwa [heq] at hrun

/-! ## A directory of one's own -/

theorem freePlace?_free {setting : Setting} {beginning : Bytes} {directory : OwnDirectory}
    (h : fs.freePlace? setting beginning = some directory) :
    fs.resolve false setting.workingDirectory directory.path = .ok (.missing directory.location) ∧
      fs.occupies directory.location = false := by
  obtain ⟨ending, -, hplace⟩ := List.exists_of_findSome?_eq_some h
  simp only at hplace
  split at hplace
  · next location hresolve =>
    split at hplace
    · cases hplace
    · next hfree =>
      obtain rfl := Option.some.inj hplace
      exact ⟨hresolve, (Bool.or_eq_false_iff.mp (Bool.eq_false_iff.mpr hfree)).1⟩
  · cases hplace

variable {directory : OwnDirectory}

/-- A new directory is a tree with nothing in it. -/
theorem enter_isTree (hfree : fs.occupies directory.location = false)
    (hroot : directory.location ≠ []) : (fs.enter directory).IsTree directory.location := by
  refine ⟨⟨.all, by rw [enter, get?_insert hroot, if_pos rfl]⟩, ?_⟩
  intro location name entry hbelow hentry
  have hinside : directory.location <+: location ++ [name] :=
    hbelow.trans (List.prefix_append location [name])
  have hne : location ++ [name] ≠ directory.location := by
    intro heq
    have hlength := hbelow.length_le
    rw [← heq, List.length_append, List.length_singleton] at hlength
    omega
  rw [enter, get?_insert hroot, if_neg hne, get?_of_free hfree hinside hroot] at hentry
  cases hentry

/-- When a directory of one's own is taken away, however it has grown, nothing is left of it. -/
theorem leave_grown {grown : FileSystem} (hfree : fs.occupies directory.location = false)
    (h : Grown directory.location (fs.enter directory) grown)
    (hremovable : grown.isRemovable directory.location = true) : grown.leave directory = fs := by
  rw [leave, if_pos hremovable, h.outside, enter, eraseBelow_insert (List.prefix_refl _),
    eraseBelow_of_free hfree]

/-- Outside of it nothing changes, even when it cannot be taken away. -/
theorem get?_leave {grown : FileSystem} {other : Location}
    (h : Grown directory.location (fs.enter directory) grown)
    (hother : ¬ directory.location <+: other) (hroot : directory.location ≠ []) :
    (grown.leave directory).get? other = fs.get? other := by
  have hne : other ≠ directory.location := by
    rintro rfl
    exact hother (List.prefix_refl _)
  have hsame : grown.get? other = fs.get? other := by
    rw [h.get? hother, enter, get?_insert hroot, if_neg hne]
  unfold leave
  split
  · rw [get?_eraseBelow hother, hsame]
  · exact hsame

/-! ## An archive that can be unpacked -/

theorem unpack_eq_ok {setting : Setting} {path : Path} {kind : ArchiveKind} {seen : FileSystem}
    (h : fs.unpack setting path kind = (seen, .ok directory)) :
    fs.freePlace? setting kind.directoryStart = some directory ∧
      (fs.enter directory).unpackInto setting path kind directory.location = (seen, .ok ()) := by
  unfold unpack at h
  cases hplace : fs.freePlace? setting kind.directoryStart with
  | none => simp [hplace] at h
  | some own =>
    simp only [hplace] at h
    split at h
    · next hinto =>
      obtain ⟨rfl, hown⟩ := Prod.mk.inj h
      obtain rfl := Except.ok.inj hown
      exact ⟨rfl, hinto⟩
    · cases (Prod.mk.inj h).2

theorem unpackInto_eq_ok {setting : Setting} {path : Path} {kind : ArchiveKind}
    {target : Location} {seen : FileSystem}
    (h : fs.unpackInto setting path kind target = (seen, .ok ())) :
    ∃ file members, fs.read setting.workingDirectory path = .ok file ∧
      kind.membersOf file = .ok members ∧ Unpacking.run target fs members = .done seen := by
  unfold unpackInto at h
  split at h
  · cases (Prod.mk.inj h).2
  next file hread =>
  split at h
  · cases (Prod.mk.inj h).2
  next members hmembers =>
  split at h
  · next hrun =>
    obtain rfl := (Prod.mk.inj h).1
    exact ⟨file, members, hread, hmembers, hrun⟩
  · cases (Prod.mk.inj h).2

/-- Of a gem only the content of its first data member counts. -/
theorem membersOf_gem {file : ByteArray} {members : Tar.Members}
    (h : ArchiveKind.gem.membersOf file = .ok members) :
    ∃ data, (Tar.members (.ofBytes file)).members.find? ArchiveKind.isDataMember = some data ∧
      members = Tar.members (Gzip.decompress data.content) := by
  simp only [ArchiveKind.membersOf] at h
  split at h
  · next data hdata => exact ⟨data, hdata, (Except.ok.inj h).symm⟩
  · cases h
  · cases h

end FileSystem
end CallSift
