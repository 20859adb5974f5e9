import CallSift.Bytes

/-!
# File systems

A file system is the list of what it holds below its root, in the order of the
locations: a directory stands before what it contains, and its contents stand
together, sorted by the bytes of their names. So two file systems that hold the
same are equal, however they came about. Every file stands at one location alone.
Files and directories have permissions, which are those of their owner, who does
all that is done.

* `get?` is what stands at a location.
* `insert` changes one location, `eraseBelow` a location and all below it.
* `filesBelow` lists the files that a walk from a directory meets.
-/
namespace CallSift

/-- The names on the way from the root. -/
abbrev Location := List Bytes

/-- What may be done with a file or a directory. To write to a directory is to make and to take away
what stands in it, and to enter it is to look up names in it. -/
structure Permissions where
  read : Bool
  write : Bool
  enter : Bool
  deriving DecidableEq, Repr

namespace Permissions

def all : Permissions := ⟨true, true, true⟩

/-- What the bits of a mode grant to an owner. -/
def ofMode (mode : Nat) : Permissions := ⟨mode.testBit 8, mode.testBit 7, mode.testBit 6⟩

/-- Of a directory: entries may be made and taken away. -/
def canChange (permissions : Permissions) : Bool := permissions.write && permissions.enter

end Permissions

inductive Entry where
  | file (content : ByteArray) (permissions : Permissions)
  | directory (permissions : Permissions)
  | link (target : Bytes)

instance : DecidableEq Entry
  | .file a p, .file b q =>
    decidable_of_decidable_of_iff (p := a.data = b.data ∧ p = q)
      ⟨fun h => congr (congrArg Entry.file (ByteArray.ext h.1)) h.2, fun h => by cases h; simp⟩
  | .directory p, .directory q =>
    decidable_of_decidable_of_iff (p := p = q)
      ⟨congrArg Entry.directory, fun h => by cases h; rfl⟩
  | .link a, .link b =>
    decidable_of_decidable_of_iff (p := a = b)
      ⟨congrArg Entry.link, fun h => by cases h; rfl⟩
  | .file .., .directory _ | .file .., .link _ | .directory _, .file .. | .directory _, .link _
  | .link _, .file .. | .link _, .directory _ => isFalse nofun

namespace Entry

/-- Links have no permissions of their own. -/
def permissions : Entry → Permissions
  | file _ permissions | directory permissions => permissions
  | link _ => .all

end Entry

namespace Location

/-- The order of names: byte by byte. -/
def NameBefore (a b : Bytes) : Prop := List.Lex (· < ·) a.toList b.toList

instance : DecidableRel NameBefore := fun a b =>
  inferInstanceAs (Decidable (List.Lex (· < ·) a.toList b.toList))

theorem NameBefore.trans {a b c : Bytes} (hab : NameBefore a b) (hbc : NameBefore b c) :
    NameBefore a c :=
  List.lex_trans UInt8.lt_trans hab hbc

theorem NameBefore.trichotomous {a b : Bytes} (hab : ¬ NameBefore a b) (hba : ¬ NameBefore b a) :
    a = b :=
  congrArg Bytes.ofList (List.lex_trichotomous (fun _ _ hcd hdc =>
    UInt8.le_antisymm (UInt8.not_lt.mp hdc) (UInt8.not_lt.mp hcd)) hba hab)

/-- The order of locations: name by name, a directory before what it contains. -/
def Before (a b : Location) : Prop := List.Lex NameBefore a b

instance : DecidableRel Before := fun a b =>
  inferInstanceAs (Decidable (List.Lex NameBefore a b))

theorem Before.trans {a b c : Location} (hab : Before a b) (hbc : Before b c) : Before a c :=
  List.lex_trans NameBefore.trans hab hbc

theorem Before.of_not_of_ne {a b : Location} (h : ¬ Before a b) (hne : a ≠ b) : Before b a :=
  Decidable.byContradiction fun hba =>
    hne (List.lex_trichotomous (fun _ _ => NameBefore.trichotomous) hba h)

end Location

structure FileSystem where
  entries : List (Location × Entry)
  sorted : entries.Pairwise (fun a b => a.1.Before b.1)

namespace FileSystem

theorem ext_entries {fs other : FileSystem} (h : fs.entries = other.entries) : fs = other := by
  cases fs; cases other; simp_all

def empty : FileSystem := ⟨[], .nil⟩

/-- What stands at a location. The root is a directory. -/
def get? (fs : FileSystem) (location : Location) : Option Entry :=
  if location = [] then some (.directory .all) else fs.entries.lookup location

/-- What may be done at a location; all, where nothing stands. -/
def permissionsAt (fs : FileSystem) (location : Location) : Permissions :=
  ((fs.get? location).map Entry.permissions).getD .all

/-! ## Changing one location -/

/-- Puts an entry in its place among sorted ones. -/
def insertEntry (location : Location) (entry : Entry) :
    List (Location × Entry) → List (Location × Entry)
  | [] => [(location, entry)]
  | first :: rest =>
    if location.Before first.1 then (location, entry) :: first :: rest
    else if location = first.1 then (location, entry) :: rest
    else first :: insertEntry location entry rest

theorem mem_insertEntry {location : Location} {entry : Entry} {x : Location × Entry} :
    ∀ {entries : List (Location × Entry)}, x ∈ insertEntry location entry entries →
      x = (location, entry) ∨ x ∈ entries
  | [], h => by simpa [insertEntry] using h
  | first :: rest, h => by
    unfold insertEntry at h
    split at h
    · simpa using h
    · split at h
      · rcases List.mem_cons.mp h with h | h
        · exact .inl h
        · exact .inr (List.mem_cons_of_mem _ h)
      · rcases List.mem_cons.mp h with h | h
        · exact .inr (h ▸ List.mem_cons_self)
        · exact (mem_insertEntry h).imp_right (List.mem_cons_of_mem _)

theorem sorted_insertEntry {location : Location} {entry : Entry} :
    ∀ {entries : List (Location × Entry)}, entries.Pairwise (fun a b => a.1.Before b.1) →
      (insertEntry location entry entries).Pairwise (fun a b => a.1.Before b.1)
  | [], _ => by simp [insertEntry]
  | first :: rest, h => by
    obtain ⟨hfirst, hrest⟩ := List.pairwise_cons.mp h
    unfold insertEntry
    split
    · next hlt =>
      refine List.pairwise_cons.mpr ⟨fun x hx => ?_, h⟩
      rcases List.mem_cons.mp hx with rfl | hx
      · exact hlt
      · exact hlt.trans (hfirst x hx)
    · split
      · next heq => exact List.pairwise_cons.mpr ⟨fun x hx => heq ▸ hfirst x hx, hrest⟩
      · next hlt hne =>
        refine List.pairwise_cons.mpr ⟨fun x hx => ?_, sorted_insertEntry hrest⟩
        rcases mem_insertEntry hx with rfl | hx
        · exact Location.Before.of_not_of_ne hlt hne
        · exact hfirst x hx

def insert (fs : FileSystem) (location : Location) (entry : Entry) : FileSystem :=
  ⟨insertEntry location entry fs.entries, sorted_insertEntry fs.sorted⟩

/-! ## Whole trees -/

/-- Removes a location and all below it. -/
def eraseBelow (fs : FileSystem) (location : Location) : FileSystem :=
  ⟨fs.entries.filter fun e => !location.isPrefixOf e.1, fs.sorted.filter _⟩

/-- Something stands at a location or below it. -/
def occupies (fs : FileSystem) (location : Location) : Bool :=
  fs.entries.any fun e => location.isPrefixOf e.1

/-- Everything below a location may be taken away: directories can be listed and, unless they are
empty, changed. -/
def isRemovable (fs : FileSystem) (location : Location) : Bool :=
  fs.entries.all fun e =>
    match e.2 with
    | .directory permissions =>
      !location.isPrefixOf e.1 ||
        permissions.read && (permissions.canChange ||
          fs.entries.all fun below => below.1 = e.1 || !e.1.isPrefixOf below.1)
    | _ => true

/-! ## Walking -/

/-- A directory keeps a walk from what stands at a location below it: it cannot be listed, or what
stands in it cannot be entered. -/
def hides (directory : Location × Permissions) (location : Location) : Bool :=
  directory.1.isPrefixOf location && directory.1.length < location.length &&
    (!directory.2.read ||
      !directory.2.enter && directory.1.length + 1 < location.length)

/-- The directories from a location on that cannot be listed and entered. -/
def closedBelow (fs : FileSystem) (location : Location) : List (Location × Permissions) :=
  fs.entries.filterMap fun e =>
    match e.2 with
    | .directory permissions =>
      if location.isPrefixOf e.1 && !(permissions.read && permissions.enter) then
        some (e.1, permissions)
      else none
    | _ => none

/-- The names that lead from a directory to each file below it that a walk meets, in order. -/
def filesBelow (fs : FileSystem) (location : Location) : List Location :=
  let closed := fs.closedBelow location
  fs.entries.filterMap fun e =>
    match e.2 with
    | .file .. =>
      if location.isPrefixOf e.1 && !closed.any (hides · e.1) then
        some (e.1.drop location.length)
      else none
    | _ => none

/-- The names that lead from a directory to each one below it, or to itself, that a walk meets, in
order, and whether it may be listed. -/
def directoriesBelow (fs : FileSystem) (location : Location) : List (Location × Bool) :=
  let closed := fs.closedBelow location
  fs.entries.filterMap fun e =>
    match e.2 with
    | .directory permissions =>
      if location.isPrefixOf e.1 && !closed.any (hides · e.1) then
        some (e.1.drop location.length, permissions.read &&
          !closed.any fun directory => !directory.2.enter && directory.1 = e.1.dropLast)
      else none
    | _ => none

end FileSystem
end CallSift
