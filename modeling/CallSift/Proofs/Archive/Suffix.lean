import CallSift.Archive.Kind
import CallSift.Proofs.Text.Bytes

/-!
# The suffix of an archive

A name is known for that of an archive in lower case, and cut by the bytes of its suffix.
Lower case takes as many bytes, so the cut falls where the suffix begins, in whatever
case it is written.

* `stem_cuts`: what is left of the name of an archive is the name without its suffix.
* `stem_append`: a suffix behind a stem is taken off again, and nothing else.
* `archive_names_split`: which names are those of archives, and how they are cut.
-/
namespace CallSift.ArchiveKind

/-- The suffixes of archives of a kind. -/
def suffixes : ArchiveKind → List String
  | gem => [".gem"]
  | tarGz => [".tgz", ".tar.gz"]

/-- A name is a stem and a suffix of the kind, whose letters are of any case. -/
def Cuts (kind : ArchiveKind) (name stem : String) : Prop :=
  ∃ ending suffix, name = stem ++ ending ∧ suffix ∈ kind.suffixes ∧
    ending.toList.map Char.toLower = suffix.toList

/-- A name without its suffix is another one. -/
theorem Cuts.ne {kind : ArchiveKind} {name stem : String} (h : kind.Cuts name stem) :
    stem ≠ name := by
  obtain ⟨ending, suffix, rfl, hmem, hlower⟩ := h
  intro heq
  have hempty : ending = "" := by
    have hlength := congrArg String.length heq
    rw [String.length_append] at hlength
    exact String.length_eq_zero_iff.mp (by omega)
  have hsome : ∀ kind : ArchiveKind, ∀ suffix ∈ kind.suffixes, suffix.toList ≠ [] := by
    intro kind; cases kind <;> decide
  exact hsome kind suffix hmem (by rw [← hlower, hempty]; rfl)

/-- As many bytes as a suffix has, taken off a name that ends in it. -/
theorem takeBytes?_of_endsIn {suffix name : String} (h : endsIn suffix name = true) :
    ∃ stem ending, name = stem ++ ending ∧ ending.toList.map Char.toLower = suffix.toList ∧
      Text.takeBytes? name.toList (name.utf8ByteSize - suffix.utf8ByteSize) = some stem.toList := by
  obtain ⟨front, hfront⟩ := List.isSuffixOf_iff_suffix.mp h
  obtain ⟨stem, ending, hname, -, hending⟩ := List.map_eq_append_iff.mp hfront.symm
  refine ⟨.ofList stem, .ofList ending, ?_, by rw [String.toList_ofList, hending], ?_⟩
  · rw [← String.ofList_append, ← hname, String.ofList_toList]
  · have hbytes : Text.byteLength ending = suffix.utf8ByteSize := by
      rw [← Text.byteLength_toList, ← hending, Text.byteLength_map_toLower]
    have hlength : name.utf8ByteSize - suffix.utf8ByteSize = Text.byteLength stem := by
      rw [← Text.byteLength_toList, hname, Text.byteLength_append, hbytes]; omega
    rw [hlength, hname, Text.takeBytes?_append, String.toList_ofList]

/-- The suffix of an archive is one of its kind, and its name ends in it. -/
theorem suffix_of_ofName? {name : String} {kind : ArchiveKind} (h : ofName? name = some kind) :
    kind.suffix name ∈ kind.suffixes ∧ endsIn (kind.suffix name) name = true := by
  unfold ofName? at h
  split at h
  · rename_i hgem
    cases h
    exact ⟨List.mem_cons_self, hgem⟩
  · split at h
    · rename_i htar
      cases h
      by_cases htgz : endsIn ".tgz" name = true
      · simp [suffix, suffixes, htgz]
      · simp only [htgz, Bool.or_false] at htar
        simp [suffix, suffixes, htgz, htar]
    · cases h

/-! ## One suffix -/

/-- A suffix of an archive ends in no other one. -/
theorem suffix_eq_of_isSuffix {kind other : ArchiveKind} {suffix longer : String}
    (hsuffix : suffix ∈ kind.suffixes) (hlonger : longer ∈ other.suffixes)
    (h : suffix.toList <:+ longer.toList) : kind = other ∧ suffix = longer := by
  have hall : ∀ suffix ∈ kind.suffixes, ∀ longer ∈ other.suffixes,
      suffix.toList <:+ longer.toList → kind = other ∧ suffix = longer := by
    cases kind <;> cases other <;> decide
  exact hall suffix hsuffix longer hlonger h

/-- A name ends in one suffix of an archive at most. -/
theorem suffix_unique {kind other : ArchiveKind} {suffix second name : String}
    (hsuffix : suffix ∈ kind.suffixes) (hsecond : second ∈ other.suffixes)
    (hends : endsIn suffix name = true) (hendsToo : endsIn second name = true) :
    kind = other ∧ suffix = second := by
  rcases List.suffix_or_suffix_of_suffix (List.isSuffixOf_iff_suffix.mp hends)
    (List.isSuffixOf_iff_suffix.mp hendsToo) with h | h
  · exact suffix_eq_of_isSuffix hsuffix hsecond h
  · obtain ⟨hkind, hsame⟩ := suffix_eq_of_isSuffix hsecond hsuffix h
    exact ⟨hkind.symm, hsame.symm⟩

/-- A name that ends in a suffix of a kind is that of an archive of this kind, with this suffix. -/
theorem ofName?_of_endsIn {kind : ArchiveKind} {suffix name : String}
    (hsuffix : suffix ∈ kind.suffixes) (hends : endsIn suffix name = true) :
    ofName? name = some kind ∧ kind.suffix name = suffix := by
  have hsome : ∃ found, ofName? name = some found := by
    unfold ofName?
    cases kind with
    | gem =>
      obtain rfl := List.mem_singleton.mp hsuffix
      exact ⟨.gem, if_pos hends⟩
    | tarGz =>
      have htar : (endsIn ".tar.gz" name || endsIn ".tgz" name) = true := by
        rcases List.mem_cons.mp hsuffix with rfl | hsuffix
        · rw [hends, Bool.or_true]
        · obtain rfl := List.mem_singleton.mp hsuffix
          rw [hends, Bool.true_or]
      rw [if_pos htar]
      split
      · exact ⟨_, rfl⟩
      · exact ⟨_, rfl⟩
  obtain ⟨found, hfound⟩ := hsome
  obtain ⟨hmem, hfoundEnds⟩ := suffix_of_ofName? hfound
  obtain ⟨rfl, hsame⟩ := suffix_unique hmem hsuffix hfoundEnds hends
  exact ⟨hfound, hsame⟩

theorem endsIn_append {suffix ending : String}
    (h : ending.toList.map Char.toLower = suffix.toList) (stem : String) :
    endsIn suffix (stem ++ ending) = true := by
  refine List.isSuffixOf_iff_suffix.mpr ⟨stem.toList.map Char.toLower, ?_⟩
  rw [← h, String.toList_append, List.map_append]

/-- A name is cut where a character ends, into its stem and the one suffix of an archive that it
ends in, which stands there in letters of any case. -/
structure Splits (kind : ArchiveKind) (name ending : String) : Prop where
  parts : name = kind.stem name ++ ending
  known : kind.suffix name ∈ kind.suffixes
  lower : ending.toList.map Char.toLower = (kind.suffix name).toList
  /-- The name ends in no other suffix. -/
  only : ∀ other : ArchiveKind, ∀ suffix ∈ other.suffixes, endsIn suffix name = true →
    other = kind ∧ suffix = kind.suffix name
  /-- As many bytes as the suffix has begin with a character. -/
  cut : Text.takeBytes? name.toList (name.utf8ByteSize - (kind.suffix name).utf8ByteSize) =
    some (kind.stem name).toList

theorem splits_of_ofName? {name : String} {kind : ArchiveKind} (h : ofName? name = some kind) :
    ∃ ending, kind.Splits name ending := by
  obtain ⟨hmem, hends⟩ := suffix_of_ofName? h
  obtain ⟨stem, ending, hname, hlower, htake⟩ := takeBytes?_of_endsIn hends
  have hstem : kind.stem name = stem := by
    simp only [ArchiveKind.stem, htake, String.ofList_toList]
  refine ⟨ending, hstem ▸ hname, hmem, hlower, fun other suffix hsuffix hother => ?_,
    hstem.symm ▸ htake⟩
  exact suffix_unique hsuffix hmem hother hends

/-- The stem of an archive's name is the name without its suffix. -/
theorem stem_cuts {name : String} {kind : ArchiveKind} (h : ofName? name = some kind) :
    kind.Cuts name (kind.stem name) := by
  obtain ⟨ending, hsplits⟩ := splits_of_ofName? h
  exact ⟨ending, kind.suffix name, hsplits.parts, hsplits.known, hsplits.lower⟩

/-- A suffix behind a stem is taken off again, and nothing of the stem. -/
theorem stem_append {kind : ArchiveKind} {suffix ending : String}
    (hsuffix : suffix ∈ kind.suffixes) (hlower : ending.toList.map Char.toLower = suffix.toList)
    (stem : String) : kind.stem (stem ++ ending) = stem := by
  obtain ⟨hkind, hsame⟩ := ofName?_of_endsIn hsuffix (endsIn_append hlower stem)
  obtain ⟨cut, hsplits⟩ := splits_of_ofName? hkind
  have hlength : ending.toList.length = cut.toList.length := by
    have hcut := hsplits.lower
    rw [hsame, ← hlower] at hcut
    have := congrArg List.length hcut
    rw [List.length_map, List.length_map] at this
    exact this.symm
  have hparts := congrArg String.toList hsplits.parts
  rw [String.toList_append, String.toList_append] at hparts
  exact (String.toList_inj.mp (List.append_inj' hparts hlength).1).symm

theorem of?_eq_some {path : Path} {kind : ArchiveKind} : of? path = some kind ↔
    ∃ name : String, path.fileName? = some (name : Bytes) ∧ ofName? name = some kind := by
  rw [of?, Option.bind_eq_some_iff]
  simp only [Option.bind_eq_some_iff, Bytes.text?_eq_some]
  constructor
  · rintro ⟨name, ⟨bytes, hbytes, rfl⟩, hkind⟩
    exact ⟨name, hbytes, hkind⟩
  · rintro ⟨name, hname, hkind⟩
    exact ⟨name, ⟨name, hname, rfl⟩, hkind⟩

/-- **Names of archives.** A path to an archive ends in a name that is cut into its stem and the
one suffix that it ends in. Whatever the stem, and be it the name of an archive itself, and
in whatever case a suffix stands behind it, together they are the name of an archive, and
the stem is what is left of it. -/
theorem archive_names_split (kind : ArchiveKind) :
    (∀ path, of? path = some kind →
      ∃ name ending, path.fileName? = some (.ofText name) ∧ kind.Splits name ending) ∧
    ∀ (path : Path) (stem ending : String), path.fileName? = some (.ofText (stem ++ ending)) →
      ∀ suffix ∈ kind.suffixes, ending.toList.map Char.toLower = suffix.toList →
      of? path = some kind ∧ kind.stem (stem ++ ending) = stem := by
  refine ⟨fun path h => ?_, fun path stem ending hname suffix hsuffix hlower => ⟨?_, ?_⟩⟩
  · obtain ⟨name, hname, hkind⟩ := of?_eq_some.mp h
    obtain ⟨ending, hsplits⟩ := splits_of_ofName? hkind
    exact ⟨name, ending, hname, hsplits⟩
  · exact of?_eq_some.mpr ⟨_, hname, (ofName?_of_endsIn hsuffix (endsIn_append hlower stem)).1⟩
  · exact stem_append hsuffix hlower stem

/-- Of two suffixes the second is taken off, behind a letter of two bytes. -/
theorem doubled_suffix_split :
    of? ⟨"/dl/é.gem.TaR.gZ"⟩ = some .tarGz ∧
    (∃ name ending, (Path.mk "/dl/é.gem.TaR.gZ").fileName? = some (.ofText name) ∧
      tarGz.Splits name ending) ∧
    tarGz.stem ("é.gem" ++ ".TaR.gZ") = "é.gem" := by
  obtain ⟨hpath, hstem⟩ := archive_names_split .tarGz
  obtain ⟨hkind, hrest⟩ := hstem ⟨"/dl/é.gem.TaR.gZ"⟩ "é.gem" ".TaR.gZ" (by rfl) ".tar.gz"
    (by decide) (by decide)
  exact ⟨hkind, hpath _ hkind, hrest⟩

end CallSift.ArchiveKind
