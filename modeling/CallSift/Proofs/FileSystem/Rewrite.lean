import CallSift.Discovery
import CallSift.FileSystem.Access
import CallSift.Proofs.FileSystem.Order

/-!
# A new content for one file

A file that gets another content keeps its place and its permissions. So every path
still leads where it led, a search still finds the same files, and only what is read
from that one file differs.

* `insert_eq_rewrite`: to put a file where one stands is to rewrite it.
* `stat_rewrite`: a path leads to the same place, and the entry there is rewritten.
* `readText_rewrite`: what is read under a path that leads elsewhere stays the same.
* `discover_rewrite`: the same files are found under an input.
-/
namespace CallSift

section
variable (target : Location) (content : ByteArray)

/-- An entry when the file at the target gets a new content. -/
def Entry.rewrite (location : Location) : Entry → Entry
  | .file old permissions => .file (if location = target then content else old) permissions
  | entry => entry

/-- Where a path leads when the file at the target gets a new content. -/
def Place.rewrite : Place → Place
  | .found location entry => .found location (entry.rewrite target content location)
  | .missing location => .missing location

def Stop.rewrite : Stop → Stop
  | .place reached => .place (reached.rewrite target content)
  | stop => stop

/-- The file system in which the file at the target has a new content. -/
def FileSystem.rewrite (fs : FileSystem) : FileSystem where
  entries := fs.entries.map fun e => (e.1, e.2.rewrite target content e.1)
  sorted := List.pairwise_map.mpr fs.sorted

end

section
variable {target : Location} {content : ByteArray}

namespace Entry

@[simp] theorem rewrite_file {location : Location} {old : ByteArray} {permissions : Permissions} :
    (file old permissions).rewrite target content location =
      file (if location = target then content else old) permissions := rfl

@[simp] theorem rewrite_directory {location : Location} {permissions : Permissions} :
    (directory permissions).rewrite target content location = directory permissions := rfl

@[simp] theorem rewrite_link {location : Location} {text : Bytes} :
    (link text).rewrite target content location = link text := rfl

theorem rewrite_of_ne {location : Location} (h : location ≠ target) (entry : Entry) :
    entry.rewrite target content location = entry := by
  cases entry <;> simp [h]

@[simp] theorem permissions_rewrite {location : Location} (entry : Entry) :
    (entry.rewrite target content location).permissions = entry.permissions := by
  cases entry <;> rfl

end Entry

namespace Stop

@[simp] theorem rewrite_found {location : Location} {entry : Entry} :
    (place (.found location entry)).rewrite target content =
      place (.found location (entry.rewrite target content location)) := rfl

@[simp] theorem rewrite_missing {location : Location} :
    (place (.missing location)).rewrite target content = place (.missing location) := rfl

@[simp] theorem rewrite_fault {error : OsError} :
    (fault error).rewrite target content = fault error := rfl

@[simp] theorem rewrite_link {directory : Location} {text : Bytes} {rest : List Bytes} :
    (link directory text rest).rewrite target content = link directory text rest := rfl

end Stop

namespace FileSystem

variable {fs : FileSystem}

theorem lookup_rewrite (location : Location) : ∀ entries : List (Location × Entry),
    (entries.map fun e => (e.1, e.2.rewrite target content e.1)).lookup location =
      (entries.lookup location).map (·.rewrite target content location)
  | [] => rfl
  | (key, entry) :: rest => by
    by_cases h : location = key
    · subst h
      simp
    · have hne : (location == key) = false := by simpa using h
      simp [List.lookup_cons, hne, lookup_rewrite location rest]

theorem get?_rewrite (location : Location) : (fs.rewrite target content).get? location =
    (fs.get? location).map (·.rewrite target content location) := by
  unfold get?
  split
  · rfl
  · exact lookup_rewrite location fs.entries

@[simp] theorem permissionsAt_rewrite (location : Location) :
    (fs.rewrite target content).permissionsAt location = fs.permissionsAt location := by
  simp [permissionsAt, get?_rewrite, Function.comp_def]

/-! ## To rewrite is to put a file where one stands -/

theorem insertEntry_eq_map {old : ByteArray} {permissions : Permissions} :
    ∀ {entries : List (Location × Entry)}, entries.Pairwise (fun a b => a.1.Before b.1) →
      entries.lookup target = some (.file old permissions) →
      insertEntry target (.file content permissions) entries =
        entries.map fun e => (e.1, e.2.rewrite target content e.1)
  | [], _, h => by simp at h
  | (key, entry) :: rest, hsorted, h => by
    obtain ⟨hfirst, hrest⟩ := List.pairwise_cons.mp hsorted
    unfold insertEntry
    by_cases hkey : target = key
    · subst hkey
      obtain rfl : entry = .file old permissions := by simpa using h
      have hkept : ∀ e ∈ rest, (e.1, e.2.rewrite target content e.1) = e := fun e he =>
        Prod.ext rfl (Entry.rewrite_of_ne (hfirst e he).ne e.2)
      rw [if_neg (Location.Before.irrefl target), if_pos rfl, List.map_cons,
        List.map_congr_left hkept, List.map_id']
      simp [Entry.rewrite]
    · have hne : (target == key) = false := by simpa using hkey
      have hlookup : rest.lookup target = some (.file old permissions) := by
        simpa [List.lookup_cons, hne] using h
      obtain ⟨before, after, rfl, -⟩ := List.lookup_eq_some_iff.mp hlookup
      have hlater : key.Before target := hfirst (target, .file old permissions) (by simp)
      have hbehind : ¬ target.Before key := fun h => Location.Before.irrefl target (h.trans hlater)
      rw [if_neg hbehind, if_neg hkey, List.map_cons, Entry.rewrite_of_ne (Ne.symm hkey),
        insertEntry_eq_map hrest hlookup]

theorem insert_eq_rewrite {old : ByteArray} {permissions : Permissions}
    (h : fs.get? target = some (.file old permissions)) :
    fs.insert target (.file content permissions) = fs.rewrite target content := by
  have hlookup : fs.entries.lookup target = some (.file old permissions) := by
    unfold get? at h
    split at h
    · cases h
    · exact h
  exact ext_entries (insertEntry_eq_map fs.sorted hlookup)

/-! ## Following paths -/

theorem follow_rewrite (last : Bool) : ∀ (names : List Bytes) (here : Location),
    (fs.rewrite target content).follow last here names =
      (fs.follow last here names).rewrite target content
  | [], here => by simp [follow]
  | name :: rest, here => by
    have hsplit := apply_ite (Stop.rewrite target content)
    simp only [follow, permissionsAt_rewrite, get?_rewrite, follow_rewrite last rest, hsplit,
      Stop.rewrite_fault]
    cases fs.get? (here ++ [name]) with
    | none => simp [hsplit]
    | some entry => cases entry <;> simp [hsplit]

theorem locate_rewrite (last : Bool) (links : Nat) (here : Location) (names : List Bytes) :
    (fs.rewrite target content).locate last links here names =
      (fs.locate last links here names).map (Place.rewrite target content) := by
  induction links generalizing here names with
  | zero =>
    unfold locate
    rw [follow_rewrite]
    cases fs.follow last here names <;> rfl
  | succ links ih =>
    unfold locate
    rw [follow_rewrite]
    cases fs.follow last here names with
    | place | fault => rfl
    | link directory text rest =>
      simp only [Stop.rewrite_link, ih, apply_ite (Except.map (Place.rewrite target content))]
      rfl

theorem resolve_rewrite (last : Bool) (workingDirectory path : Path) :
    (fs.rewrite target content).resolve last workingDirectory path =
      (fs.resolve last workingDirectory path).map (Place.rewrite target content) := by
  simp only [resolve, locateFrom, locate_rewrite,
    apply_ite (Except.map (Place.rewrite target content))]
  rfl

/-- A path leads to the same location; what stands there has the new content. -/
theorem stat_rewrite (workingDirectory path : Path) :
    (fs.rewrite target content).stat workingDirectory path =
      (fs.stat workingDirectory path).map fun found =>
        (found.1, found.2.rewrite target content found.1) := by
  unfold stat
  rw [resolve_rewrite]
  rcases fs.resolve true workingDirectory path with _ | _ | _ <;> rfl

@[simp] theorem exists?_rewrite (workingDirectory path : Path) :
    (fs.rewrite target content).exists? workingDirectory path =
      fs.exists? workingDirectory path := by
  unfold exists?
  rw [stat_rewrite]
  cases fs.stat workingDirectory path <;> rfl

@[simp] theorem directory?_rewrite (workingDirectory path : Path) :
    (fs.rewrite target content).directory? workingDirectory path =
      fs.directory? workingDirectory path := by
  unfold directory?
  rw [stat_rewrite]
  rcases fs.stat workingDirectory path with _ | ⟨location, _ | _ | _⟩ <;> rfl

@[simp] theorem isFile_rewrite (workingDirectory path : Path) :
    (fs.rewrite target content).isFile workingDirectory path =
      fs.isFile workingDirectory path := by
  unfold isFile
  rw [stat_rewrite]
  rcases fs.stat workingDirectory path with _ | ⟨location, _ | _ | _⟩ <;> rfl

/-- What is read under a path that does not lead to the target stays the same. -/
theorem readText_rewrite {workingDirectory path : Path}
    (h : ∀ entry, fs.stat workingDirectory path ≠ .ok (target, entry)) :
    (fs.rewrite target content).readText workingDirectory path =
      fs.readText workingDirectory path := by
  unfold readText read
  rw [stat_rewrite]
  rcases hs : fs.stat workingDirectory path with error | ⟨location, entry⟩
  · rfl
  · have hne : location ≠ target := by
      rintro rfl
      exact h entry hs
    simp only [Except.map, Entry.rewrite_of_ne hne]

/-! ## Finding files -/

/-- What is listed of the entries without a look at the contents of files stays the same. -/
theorem filterMap_rewrite {α : Type} {f : Location × Entry → Option α}
    (h : ∀ e, f (e.1, e.2.rewrite target content e.1) = f e) :
    (fs.rewrite target content).entries.filterMap f = fs.entries.filterMap f := by
  simp only [rewrite, List.filterMap_map, Function.comp_def, h]

@[simp] theorem closedBelow_rewrite (location : Location) :
    (fs.rewrite target content).closedBelow location = fs.closedBelow location :=
  filterMap_rewrite fun e => by cases e.2 <;> rfl

@[simp] theorem filesBelow_rewrite (location : Location) :
    (fs.rewrite target content).filesBelow location = fs.filesBelow location := by
  simp only [filesBelow, closedBelow_rewrite]
  exact filterMap_rewrite fun e => by cases e.2 <;> rfl

@[simp] theorem directoriesBelow_rewrite (location : Location) :
    (fs.rewrite target content).directoriesBelow location = fs.directoriesBelow location := by
  simp only [directoriesBelow, closedBelow_rewrite]
  exact filterMap_rewrite fun e => by cases e.2 <;> rfl

/-- The same files are found under an input, whatever they hold. -/
theorem discover_rewrite (workingDirectory : Path) (language : Language) (input : Path)
    (root : Option Path) :
    (fs.rewrite target content).discover workingDirectory language input root =
      fs.discover workingDirectory language input root := by
  simp only [discover, enumerate, exists?_rewrite, directory?_rewrite, filesBelow_rewrite,
    directoriesBelow_rewrite]

end FileSystem

end
end CallSift
