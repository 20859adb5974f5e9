import CallSift.Proofs.FileSystem.Write

/-!
# A file among the others

When a file comes to stand at a free place, or a file gets another content, every path
leads where it led, but for those that lead to the file. A path that led nowhere still
does, and at most says so in another way when the file stands on it.

* `Accepts.stat_cases`: what a path leads to afterwards.
* `Accepts.directory?_insert` and `Accepts.exists?_insert`: directories stay what they were.
* `filterMap_insertEntry`: a list of entries that passes over the file stays as it was.
-/
namespace CallSift.FileSystem

variable {fs : FileSystem} {target : Location} {permissions : Permissions}

/-! ## Where paths lead -/

section
variable (h : fs.Accepts target permissions) (content : ByteArray)
include h

/-- Names that lead nowhere still do. They may meet a file now where nothing was. -/
theorem Accepts.follow_fault {last : Bool} {here : Location} {names : List Bytes}
    {error : OsError} (hfault : fs.follow last here names = .fault error) :
    (fs.insert target (.file content permissions)).follow last here names = .fault error ∨
      error = .notFound ∧
        (fs.insert target (.file content permissions)).follow last here names =
          .fault .notDirectory := by
  have hget := h.get?_insert content
  have hpermissions := h.permissionsAt_insert content
  fun_induction fs.follow last here names
  all_goals grind [follow, Accepts]

theorem Accepts.locate_fault {last : Bool} {links : Nat} {here : Location}
    {names : List Bytes} {error : OsError}
    (herror : fs.locate last links here names = .error error) :
    (fs.insert target (.file content permissions)).locate last links here names = .error error ∨
      error = .notFound ∧
        (fs.insert target (.file content permissions)).locate last links here names =
          .error .notDirectory := by
  unfold locate at herror ⊢
  cases hstop : fs.follow last here names with
  | place found => rw [hstop] at herror; cases herror
  | fault error =>
    rw [hstop] at herror
    obtain rfl := Except.error.inj herror
    rcases h.follow_fault content hstop with hsame | ⟨rfl, hblocked⟩
    · exact .inl (by rw [hsame])
    · exact .inr ⟨rfl, by rw [hblocked]⟩
  | link directory text rest =>
    have hfollow : (fs.insert target (.file content permissions)).follow last here names =
        .link directory text rest := by
      rcases h.follow_insert content last here names with ⟨error, hfault⟩ | hfollow
      · cases hstop.symm.trans hfault
      · rw [hfollow, hstop]
        rfl
    rw [hstop] at herror
    rw [hfollow]
    cases links with
    | zero => exact .inl herror
    | succ links =>
      by_cases hempty : text = .empty
      · simp only [if_pos hempty] at herror ⊢
        exact .inl herror
      · simp only [if_neg hempty] at herror ⊢
        exact Accepts.locate_fault herror
termination_by links

theorem Accepts.resolve_fault {last : Bool} {workingDirectory path : Path} {error : OsError}
    (herror : fs.resolve last workingDirectory path = .error error) :
    (fs.insert target (.file content permissions)).resolve last workingDirectory path =
        .error error ∨
      error = .notFound ∧
        (fs.insert target (.file content permissions)).resolve last workingDirectory path =
          .error .notDirectory := by
  unfold resolve locateFrom at herror ⊢
  split at herror
  · next hempty => exact .inl (by rw [if_pos hempty, herror])
  next hsome =>
  split at herror
  · next hlong => exact .inl (by rw [if_neg hsome, if_pos hlong, herror])
  next hshort =>
  rw [if_neg hsome, if_neg hshort]
  split at herror
  · next habsolute =>
    rw [if_pos habsolute]
    exact h.locate_fault content herror
  · next hrelative =>
    rw [if_neg hrelative]
    exact h.locate_fault content herror

/-- A path leads to the file, where it led to a free place or to what the file held before; or it
leads where it led; or it led nowhere, and the file is on its way now. -/
theorem Accepts.stat_cases (workingDirectory path : Path) :
    (fs.insert target (.file content permissions)).stat workingDirectory path =
          .ok (target, .file content permissions) ∧
        (fs.stat workingDirectory path = .error .notFound ∨ ∃ old kept,
          fs.stat workingDirectory path = .ok (target, .file old kept)) ∨
      (fs.insert target (.file content permissions)).stat workingDirectory path =
        fs.stat workingDirectory path ∨
      (fs.insert target (.file content permissions)).stat workingDirectory path =
          .error .notDirectory ∧
        fs.stat workingDirectory path = .error .notFound := by
  unfold stat
  cases hresolve : fs.resolve true workingDirectory path with
  | error error =>
    rcases h.resolve_fault content hresolve with hsame | ⟨rfl, hblocked⟩
    · exact .inr (.inl (by rw [hsame]))
    · exact .inr (.inr ⟨by rw [hblocked], rfl⟩)
  | ok place =>
    rw [h.resolve_insert content hresolve]
    rcases place with ⟨location, old | _ | _⟩ | location
    · by_cases heq : location = target
      · subst heq
        exact .inl ⟨by simp [Place.written], .inr ⟨_, _, rfl⟩⟩
      · exact .inr (.inl (by simp [Place.written, heq]))
    · exact .inr (.inl rfl)
    · exact .inr (.inl rfl)
    · by_cases heq : location = target
      · exact .inl ⟨by simp [Place.written, heq], .inl rfl⟩
      · exact .inr (.inl (by simp [Place.written, heq]))

theorem Accepts.directory?_insert (workingDirectory path : Path) :
    (fs.insert target (.file content permissions)).directory? workingDirectory path =
      fs.directory? workingDirectory path := by
  unfold directory?
  rcases h.stat_cases content workingDirectory path with
    ⟨hfile, hnone | ⟨old, kept, hold⟩⟩ | hsame | ⟨hblocked, hnone⟩
  · rw [hfile, hnone]
  · rw [hfile, hold]
  · rw [hsame]
  · rw [hblocked, hnone]

/-- What exists still does, and it is a file as before or still none. -/
theorem Accepts.exists?_insert {workingDirectory path : Path}
    (hexists : fs.exists? workingDirectory path = true) :
    (fs.insert target (.file content permissions)).exists? workingDirectory path = true ∧
      (fs.insert target (.file content permissions)).isFile workingDirectory path =
        fs.isFile workingDirectory path := by
  unfold exists? at hexists ⊢
  unfold isFile
  rcases h.stat_cases content workingDirectory path with
    ⟨hfile, hnone | ⟨old, kept, hold⟩⟩ | hsame | ⟨hblocked, hnone⟩
  · rw [hnone] at hexists
    cases hexists
  · rw [hfile, hold]
    exact ⟨rfl, rfl⟩
  · rw [hsame]
    exact ⟨hexists, rfl⟩
  · rw [hnone] at hexists
    cases hexists

end

/-! ## What a walk lists -/

/-- What is made of each entry stays as it was where nothing is made of the one that is put among
them, and nothing was made of the one in its place. -/
theorem filterMap_insertEntry {α : Type} {f : Location × Entry → Option α} {location : Location}
    {entry : Entry} (hnew : f (location, entry) = none) :
    ∀ {entries : List (Location × Entry)},
      (∀ old, (location, old) ∈ entries → f (location, old) = none) →
      (insertEntry location entry entries).filterMap f = entries.filterMap f
  | [], _ => by simp [insertEntry, hnew]
  | (key, found) :: rest, hold => by
    unfold insertEntry
    split
    · rw [List.filterMap_cons_none hnew]
    split
    · next hkey =>
      obtain rfl : location = key := hkey
      rw [List.filterMap_cons_none hnew,
        List.filterMap_cons_none (hold found List.mem_cons_self)]
    · rw [List.filterMap_cons, List.filterMap_cons,
        filterMap_insertEntry hnew fun old hmem => hold old (List.mem_cons_of_mem _ hmem)]

section
variable (h : fs.Accepts target permissions) (content : ByteArray)
include h

/-- Only a file can be listed under the location already. -/
theorem Accepts.mem_entries {old : Entry} (hmem : (target, old) ∈ fs.entries) :
    ∃ held, old = .file held permissions := by
  have hstands := (get?_eq_some_iff h.ne_root).mpr hmem
  rcases h with ⟨held, hfile⟩ | ⟨hfree, -⟩
  · exact ⟨held, Option.some.inj (hstands.symm.trans hfile)⟩
  · cases hstands.symm.trans hfree

theorem Accepts.closedBelow_insert (top : Location) :
    (fs.insert target (.file content permissions)).closedBelow top = fs.closedBelow top := by
  refine filterMap_insertEntry rfl fun old hmem => ?_
  obtain ⟨held, rfl⟩ := h.mem_entries hmem
  rfl

end

end CallSift.FileSystem
