import CallSift.Proofs.Analysis.Whole
import CallSift.Proofs.Discovery.Named
import CallSift.Proofs.FileSystem.Added

/-!
# Searching again

A search that comes after a file has been written finds the inputs that it found before,
unless the file is one. They lead where they led. Only an input that is no directory, and
led nowhere, may now lead nowhere for another reason.

* `StandsAt`: where the inputs of a search stand.
* `Accepts.discover_insert`: what a search finds afterwards.
* `Repeats` and `Accepts.repeats`: where its inputs lead.
-/
namespace CallSift.FileSystem

variable {fs : FileSystem} {target : Location} {permissions : Permissions}

/-! ## What a search finds -/

/-- The path of an entry that is an input of a search below a directory. -/
def inputBelow? (language : Language) (input : Path) (top : Location)
    (closed : List (Location × Permissions)) : Location × Entry → Option Path
  | (location, .file ..) =>
    let path := below input (location.drop top.length)
    if top.isPrefixOf location && !closed.any (hides · location) &&
        (isWalked input (location.drop top.length) && language.isSource path) then some path
    else none
  | _ => none

theorem inputs_eq_filterMap (language : Language) (input : Path) (top : Location) :
    (((fs.filesBelow top).filter (isWalked input)).map (below input)).filter language.isSource =
      fs.entries.filterMap (inputBelow? language input top (fs.closedBelow top)) := by
  rw [filesBelow, ← List.filterMap_eq_filter, ← List.filterMap_eq_map, ← List.filterMap_eq_filter,
    List.filterMap_filterMap, List.filterMap_filterMap, List.filterMap_filterMap]
  refine List.filterMap_congr fun e _ => ?_
  obtain ⟨location, entry⟩ := e
  cases entry with
  | directory | link => rfl
  | file =>
    simp only [inputBelow?]
    cases top.isPrefixOf location && !(fs.closedBelow top).any (hides · location) with
    | false => rfl
    | true =>
      by_cases hwalked : isWalked input (location.drop top.length) = true
      · simp [Option.guard, hwalked]
      · simp [Option.guard, hwalked]

theorem inputs_enumerate {workingDirectory : Path} {language : Language}
    {components : List Component} {top : Location}
    (hplace : fs.directory? workingDirectory (.ofComponents components) = some top) :
    (fs.enumerate workingDirectory language components).inputs = fs.entries.filterMap
      (inputBelow? language (.ofComponents components) top (fs.closedBelow top)) := by
  simp only [enumerate, hplace, inputs_eq_filterMap]

/-- Where an input of a search stands: under its names below the directory that is searched, or
where the input itself leads if that is no directory. -/
inductive StandsAt (fs : FileSystem) (workingDirectory : Path) (set : InputSet) :
    Location → Prop
  | below {top names : Location} (hplace : fs.directory? workingDirectory set.input = some top)
    (hinput : below set.input names ∈ set.inputs) : StandsAt fs workingDirectory set (top ++ names)
  | itself {location : Location} {entry : Entry}
    (hplace : fs.directory? workingDirectory set.input = none)
    (hstat : fs.stat workingDirectory set.input = .ok (location, entry)) :
    StandsAt fs workingDirectory set location

section
variable (h : fs.Accepts target permissions) (content : ByteArray)
include h

/-- The inputs below a directory stay as they were if the file is not one of them. -/
theorem Accepts.filterMap_inputBelow (language : Language) (input : Path) (top : Location)
    (hnot : ∀ names, target = top ++ names → below input names ∉
      (fs.insert target (.file content permissions)).entries.filterMap
        (inputBelow? language input top (fs.closedBelow top))) :
    (fs.insert target (.file content permissions)).entries.filterMap
        (inputBelow? language input top (fs.closedBelow top)) =
      fs.entries.filterMap (inputBelow? language input top (fs.closedBelow top)) := by
  have hnone : inputBelow? language input top (fs.closedBelow top)
      (target, .file content permissions) = none := by
    refine Option.eq_none_iff_forall_ne_some.mpr fun path hpath => ?_
    have hmem : (target, .file content permissions) ∈
        (fs.insert target (.file content permissions)).entries :=
      (get?_eq_some_iff h.ne_root).mp ((h.get?_insert content target).trans (if_pos rfl))
    have hlisted := List.mem_filterMap.mpr ⟨_, hmem, hpath⟩
    simp only [inputBelow?] at hpath
    split at hpath
    · next hmet =>
      obtain rfl := Option.some.inj hpath
      obtain ⟨names, rfl⟩ :=
        List.isPrefixOf_iff_prefix.mp (Bool.and_eq_true_iff.mp (Bool.and_eq_true_iff.mp hmet).1).1
      rw [List.drop_left] at hlisted
      exact hnot names rfl hlisted
    · cases hpath
  refine filterMap_insertEntry hnone fun old hmem => ?_
  -- what a file holds does not matter for its path
  obtain ⟨held, rfl⟩ := h.mem_entries hmem
  exact hnone

theorem Accepts.enumerate_insert (workingDirectory : Path) (language : Language)
    (components : List Component) :
    let set := fs.enumerate workingDirectory language components
    let after := (fs.insert target (.file content permissions)).enumerate workingDirectory
      language components
    after.input = set.input ∧ after.root = set.root ∧
      ∀ above, ¬ (fs.insert target (.file content permissions)).StandsAt workingDirectory
        { after with root := above } target → after.inputs = set.inputs := by
  intro set after
  have hinput : after.input = .ofComponents components := input_enumerate components
  have hplace := h.directory?_insert content workingDirectory (.ofComponents components)
  cases hdirectory : fs.directory? workingDirectory (.ofComponents components) with
  | none => simp [set, after, enumerate, hplace, hdirectory]
  | some top =>
    rw [hdirectory] at hplace
    refine ⟨hinput.trans (input_enumerate components).symm, ?_, fun above hnot => ?_⟩
    · simp [set, after, enumerate, hplace, hdirectory]
    have hinputs : after.inputs = _ := inputs_enumerate hplace
    have hbefore : set.inputs = _ := inputs_enumerate hdirectory
    rw [h.closedBelow_insert content] at hinputs
    rw [hinputs, hbefore]
    refine h.filterMap_inputBelow content language _ top fun names heq hmem => hnot ?_
    rw [← hinputs, ← hinput] at hmem
    rw [← hinput] at hplace
    subst heq
    exact .below hplace hmem

/-- A search finds its input and its root as before, and the inputs that it found unless the file
is one. -/
theorem Accepts.discover_insert {workingDirectory input : Path} {language : Language}
    {root : Option Path} {set : InputSet}
    (hset : fs.discover workingDirectory language input root = .ok set) :
    ∃ after, (fs.insert target (.file content permissions)).discover workingDirectory language
        input root = .ok after ∧ after.input = set.input ∧ after.root = set.root ∧
      (¬ (fs.insert target (.file content permissions)).StandsAt workingDirectory after target →
        after.inputs = set.inputs) := by
  unfold discover at hset ⊢
  split at hset
  · next hexists =>
    rw [if_pos (h.exists?_insert content hexists).1]
    cases hinput : Path.absolute? workingDirectory input with
    | none => simp [hinput] at hset
    | some components =>
      obtain ⟨hsame, hroot, hinputs⟩ :=
        h.enumerate_insert content workingDirectory language components
      simp only [hinput] at hset ⊢
      cases root with
      | none =>
        obtain rfl := Except.ok.inj hset
        exact ⟨_, rfl, hsame, hroot, hinputs _⟩
      | some root =>
        cases habove : Path.absolute? workingDirectory root with
        | none => simp [habove] at hset
        | some above =>
          simp only [habove] at hset ⊢
          obtain rfl := Except.ok.inj hset
          exact ⟨_, rfl, hsame, rfl, hinputs _⟩
  · cases hset

end

/-! ## Where inputs lead -/

/-- Names that lead down to a file are all there: what may fail is to enter a directory, or a name
that is too long. -/
theorem follow_leadsDown {here : Location} {names : List Bytes} (h : fs.LeadsDown here names)
    (hnames : ∀ name ∈ names, IsName name) : fs.follow true here names ≠ .fault .notFound := by
  induction h with
  | file hfile =>
    have hname := hnames _ List.mem_cons_self
    rw [follow_name hname.notCurrent hname.notParent, hfile]
    split
    · nofun
    split
    · nofun
    · nofun
  | directory hdirectory _ ih =>
    obtain ⟨hname, hrest⟩ := List.forall_mem_cons.mp hnames
    rw [follow_name hname.notCurrent hname.notParent, hdirectory]
    split
    · nofun
    split
    · nofun
    · exact ih hrest

theorem stat_leadsDown_ne (hwhole : fs.IsWhole) {workingDirectory place : Path} {top : Location}
    (hplace : fs.directory? workingDirectory place = some top) {names : List Bytes}
    (h : fs.LeadsDown top names) :
    fs.stat workingDirectory (below place names) ≠ .error .notFound := by
  obtain ⟨hsome, content, permissions, hfile⟩ := h.stands
  have hnames := isName_below hwhole hfile
  by_cases hshort : (below place names).bytes.size < pathLimit
  · rcases follow_file hwhole.tree hsome hfile with ⟨error, hfault⟩ | hfound
    · have herror := resolve_below hplace hnames hsome hshort fun links => by
        rw [locate, hfault]
      rw [stat, herror]
      rintro ⟨⟩
      exact follow_leadsDown h hnames hfault
    · have hsame := resolve_below hplace hnames hsome hshort fun links => by
        rw [locate, hfound]
      rw [stat, hsame]
      intro hnone
      cases hnone
  · obtain ⟨htext, -⟩ := directory?_eq_some hplace
    rw [stat, resolve, locateFrom, if_neg (bytes_below_ne hnames htext),
      if_pos (Nat.not_lt.mp hshort)]
    intro hnone
    cases hnone

/-- A search that finds the same inputs in another file system, which lead where they led. Only the
input itself, if it is no directory and led nowhere, may lead nowhere for another reason. -/
structure Repeats (fs left : FileSystem) (workingDirectory : Path)
    (set after : InputSet) : Prop where
  input : after.input = set.input
  root : after.root = set.root
  inputs : after.inputs = set.inputs
  stat : (∀ file ∈ set.inputs,
      left.stat workingDirectory file = fs.stat workingDirectory file) ∨
    set.inputs = [set.input] ∧ fs.stat workingDirectory set.input = .error .notFound ∧
      left.stat workingDirectory set.input = .error .notDirectory

theorem Repeats.trans {between left : FileSystem} {workingDirectory : Path}
    {set middle after : InputSet} (first : fs.Repeats between workingDirectory set middle)
    (second : between.Repeats left workingDirectory middle after) :
    fs.Repeats left workingDirectory set after := by
  refine ⟨second.input.trans first.input, second.root.trans first.root,
    second.inputs.trans first.inputs, ?_⟩
  have hsecond := second.stat
  rw [first.inputs, first.input] at hsecond
  rcases first.stat with hfirst | ⟨hsingle, hold, hbetween⟩
  · rcases hsecond with hsame | ⟨hsingle, hbetween, hnew⟩
    · exact .inl fun file hfile => (hsame file hfile).trans (hfirst file hfile)
    · have hold := hfirst set.input (hsingle ▸ List.mem_singleton_self _)
      exact .inr ⟨hsingle, hold.symm.trans hbetween, hnew⟩
  · rcases hsecond with hsame | ⟨-, hblocked, -⟩
    · have hnew := hsame set.input (hsingle ▸ List.mem_singleton_self _)
      exact .inr ⟨hsingle, hold, hnew.trans hbetween⟩
    · cases hblocked.symm.trans hbetween

/-- A file that is no input leaves the inputs where they are. -/
theorem Accepts.repeats (h : fs.Accepts target permissions) (content : ByteArray)
    (hwhole : fs.IsWhole) {workingDirectory input : Path} {language : Language}
    {root : Option Path} {set after : InputSet}
    (hset : fs.discover workingDirectory language input root = .ok set)
    (hafter : (fs.insert target (.file content permissions)).discover workingDirectory language
      input root = .ok after)
    (hnot : ¬ (fs.insert target (.file content permissions)).StandsAt workingDirectory after
      target) :
    fs.Repeats (fs.insert target (.file content permissions)) workingDirectory set after := by
  obtain ⟨same, hsame, hinput, hroot, hinputs⟩ := h.discover_insert content hset
  obtain rfl := Except.ok.inj (hafter.symm.trans hsame)
  replace hinputs := hinputs hnot
  have hplace := h.directory?_insert content workingDirectory set.input
  refine ⟨hinput, hroot, hinputs, ?_⟩
  cases hdirectory : fs.directory? workingDirectory set.input with
  | some top =>
    refine .inl fun file hfile => ?_
    obtain ⟨hfiles, hsources⟩ := files_walked hdirectory hset
    have hlisted := hfile
    rw [hsources, hfiles] at hlisted
    obtain ⟨names, hmem, rfl⟩ := List.mem_map.mp (List.mem_filter.mp hlisted).1
    have hleads := leadsDown_of_mem_filesBelow hwhole hdirectory (List.mem_filter.mp hmem).1
    rcases h.stat_cases content workingDirectory (below set.input names)
      with ⟨-, hnone | ⟨old, kept, hold⟩⟩ | hstat | ⟨-, hnone⟩
    · exact absurd hnone (stat_leadsDown_ne hwhole hdirectory hleads)
    · obtain ⟨rfl, -⟩ := stat_leadsDown hwhole hdirectory hleads hold
      refine absurd (StandsAt.below ?_ (hinput ▸ hinputs ▸ hfile)) hnot
      rw [hinput, hplace, hdirectory]
    · exact hstat
    · exact absurd hnone (stat_leadsDown_ne hwhole hdirectory hleads)
  | none =>
    obtain ⟨-, hsingle⟩ := files_of_none hdirectory hset
    rcases h.stat_cases content workingDirectory set.input
      with ⟨hstat, -⟩ | hstat | ⟨hblocked, hnone⟩
    · refine absurd (StandsAt.itself ?_ (hinput ▸ hstat)) hnot
      rw [hinput, hplace, hdirectory]
    · refine .inl fun file hfile => ?_
      rw [hsingle] at hfile
      rw [List.mem_singleton.mp hfile, hstat]
    · exact .inr ⟨hsingle, hnone, hblocked⟩

/-- What was the place of an input still is one. -/
theorem Accepts.standsAt_insert (h : fs.Accepts target permissions) (content : ByteArray)
    {workingDirectory : Path} {set after : InputSet} (hinput : after.input = set.input)
    (hinputs : after.inputs = set.inputs) {location : Location}
    (hstands : fs.StandsAt workingDirectory set location) :
    (fs.insert target (.file content permissions)).StandsAt workingDirectory after location := by
  cases hstands with
  | below hplace hmem =>
    refine .below ?_ ?_
    · rw [hinput, h.directory?_insert, hplace]
    · rwa [hinput, hinputs]
  | itself hplace hstat =>
    have hnone : (fs.insert target (.file content permissions)).directory? workingDirectory
        after.input = none := by
      rw [hinput, h.directory?_insert, hplace]
    rcases h.stat_cases content workingDirectory set.input
      with ⟨hfile, hmissing | ⟨old, kept, hold⟩⟩ | hsame | ⟨-, hmissing⟩
    · cases hstat.symm.trans hmissing
    · obtain ⟨rfl, -⟩ := Prod.mk.inj (Except.ok.inj (hold.symm.trans hstat))
      exact .itself hnone (hinput ▸ hfile)
    · exact .itself hnone (hinput ▸ hsame.trans hstat)
    · cases hstat.symm.trans hmissing

theorem WritesTo.isWhole {workingDirectory path : Path}
    (h : fs.WritesTo workingDirectory path target permissions) (hwhole : fs.IsWhole)
    (content : ByteArray) : (fs.insert target (.file content permissions)).IsWhole := by
  refine hwhole.insert ?_ ?_
  · rcases h.leads with ⟨old, hresolve, -⟩ | ⟨hresolve, -, -⟩
    · have hmem := (get?_eq_some_iff h.accepts.ne_root).mp (resolve_file hresolve)
      exact isWhole_iff.mp hwhole _ hmem
    · exact resolve_free hwhole.tree hresolve
  · rintro ⟨directory, hstands⟩
    rcases h.accepts with ⟨old, hfile⟩ | ⟨hfree, -⟩
    · cases hstands.symm.trans hfile
    · cases hstands.symm.trans hfree

end CallSift.FileSystem
