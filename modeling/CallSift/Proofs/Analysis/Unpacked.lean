import CallSift.Proofs.Analysis.Places
import CallSift.Proofs.Archive.Stored
import CallSift.Proofs.Archive.Unpack

/-!
# Archives and directories

An archive is analyzed by what it unpacks to. A directory that holds the same tree
gives the same outcome, apart from the names of the two directories, unless the path of
one of them keeps its files from being read.

* `unpack_tree`: what is unpacked is a tree in a directory of its own.
* `archive_like_directory`: the outcomes of an archive and of a directory.
* `place_matters`: paths under which a tree is not analyzed.
-/
namespace CallSift

namespace FileSystem

/-- The normal form of a path, which leads where the path leads. -/
structure IsNormalForm (fs : FileSystem) (last : Bool) (workingDirectory path place : Path) :
    Prop where
  normal : (Path.absolute? workingDirectory path).map Path.ofComponents = some place
  same : fs.resolve last workingDirectory place = fs.resolve last workingDirectory path

variable {fs seen : FileSystem} {workingDirectory path : Path} {top : Location}

theorem directory?_congr {place : Path}
    (h : fs.resolve true workingDirectory place = fs.resolve true workingDirectory path) :
    fs.directory? workingDirectory place = fs.directory? workingDirectory path := by
  simp only [directory?, stat, h]

/-- What an archive is unpacked to: a tree in an open directory, to which every path leads that
led to the free place before. -/
theorem unpack_tree {setting : Setting} {kind : ArchiveKind} {directory : OwnDirectory}
    (h : fs.unpack setting path kind = (seen, .ok directory)) :
    seen.IsTree directory.location ∧
      seen.Holds directory.location (seen.subtree directory.location) ∧
      ∀ {workingDirectory place : Path},
        fs.resolve false workingDirectory place = .ok (.missing directory.location) →
        seen.directory? workingDirectory place = some directory.location := by
  obtain ⟨hplace, hinto⟩ := unpack_eq_ok h
  obtain ⟨hresolve, hfree⟩ := freePlace?_free hplace
  have hroot := (resolve_missing hresolve).1
  have hgrown := unpackInto_grown (enter_isTree hfree hroot) setting path kind
  rw [hinto] at hgrown
  have htop : seen.get? directory.location = some (.directory .all) := by
    rw [hgrown.root, enter, get?_insert hroot, if_pos rfl]
  have houtside : ∀ other, ¬ directory.location <+: other → seen.get? other = fs.get? other := by
    intro other hother
    have hne : other ≠ directory.location := by
      rintro rfl
      exact hother (List.prefix_refl _)
    rw [hgrown.get? hother, enter, get?_insert hroot, if_neg hne]
  exact ⟨hgrown.tree, holds_of_get? hroot htop rfl rfl,
    directory?_grown hfree hroot houtside hgrown.tree.stands⟩

end FileSystem

namespace Analyzer

open FileSystem

variable {setting : Setting} {fs seen other : FileSystem}
  {request otherRequest : Request} {kind : ArchiveKind} {directory : OwnDirectory}
  {place otherPlace : Path} {otherTop : Location}

/-- **Archives like directories.** An archive that can be unpacked is analyzed like a directory
that holds the tree it unpacks to: both analyses succeed, and their outcomes differ by the
names of the two directories only. Each of the two paths must still lead to its directory
in normal form, and leave room for the names of all files. What a gem unpacks to is the
content of its first data member. -/
theorem archive_like_directory (analyzer : Analyzer)
    (hkind : archive? fs setting.workingDirectory request.input = some kind)
    (hunpack : fs.unpack setting request.input kind = (seen, .ok directory))
    (hroot : request.root = none) (hotherRoot : otherRequest.root = none)
    (hplace : fs.IsNormalForm false setting.workingDirectory directory.path place)
    (hotherPlace :
      other.IsNormalForm true setting.workingDirectory otherRequest.input otherPlace)
    (hdirectory : other.directory? setting.workingDirectory otherRequest.input = some otherTop)
    (hholds : other.Holds otherTop (seen.subtree directory.location))
    (hfits : (seen.subtree directory.location).FitsIn place)
    (hotherFits : (seen.subtree directory.location).FitsIn otherPlace) :
    ∃ outcome otherOutcome,
      (analyzer.analyze setting fs request).result = .ok outcome ∧
      (analyzer.analyze setting other otherRequest).result = .ok otherOutcome ∧
      Outcome.Moved place otherPlace outcome otherOutcome ∧
      (kind = .gem → ∃ file data,
        (fs.enter directory).read setting.workingDirectory request.input = .ok file ∧
        (Tar.members (.ofBytes file)).members.find? ArchiveKind.isDataMember = some data ∧
        Unpacking.run directory.location (fs.enter directory)
          (Tar.members (Gzip.decompress data.content)) = .done seen) := by
  obtain ⟨htree, hown, hleads⟩ := unpack_tree hunpack
  obtain ⟨hfreePlace, hinto⟩ := unpack_eq_ok hunpack
  have hresolve := (freePlace?_free hfreePlace).1
  obtain ⟨components, hcomponents, rfl⟩ := Option.map_eq_some_iff.mp hplace.normal
  obtain ⟨otherComponents, hotherComponents, rfl⟩ :=
    Option.map_eq_some_iff.mp hotherPlace.normal
  have hreaches : seen.Reaches setting.workingDirectory (.ofComponents components)
      directory.location (seen.subtree directory.location) :=
    ⟨hleads (hplace.same.trans hresolve), hown⟩
  have hotherReaches : other.Reaches setting.workingDirectory (.ofComponents otherComponents)
      otherTop (seen.subtree directory.location) :=
    ⟨(directory?_congr hotherPlace.same).trans hdirectory, hholds⟩
  obtain ⟨outcome, otherOutcome, hresult, hotherResult, hmoved⟩ :=
    analyzeAt_moved analyzer htree.subtree hroot hotherRoot
      (exists?_of_directory? (hleads hresolve)) (exists?_of_directory? hdirectory) hcomponents
      hotherComponents hreaches hotherReaches hfits hotherFits
  refine ⟨outcome, otherOutcome, ?_, ?_, hmoved, ?_⟩
  · simpa only [analyze, hkind, analyzeArchive, hunpack] using hresult
  · simpa only [analyze, archive?_of_directory? hdirectory] using hotherResult
  · rintro rfl
    obtain ⟨file, members, hread, hmembers, hrun⟩ := unpackInto_eq_ok hinto
    obtain ⟨data, hdata, rfl⟩ := membersOf_gem hmembers
    exact ⟨file, data, hread, hdata, hrun⟩

end Analyzer

/-! ## A small archive -/

namespace Note

/-- The header of a file with two bytes. -/
def header : List UInt8 :=
  [97, 46, 114, 98] ++ List.replicate 96 0 ++ [54, 52, 52] ++ List.replicate 21 0 ++ [50] ++
    List.replicate 23 0 ++ [49, 52, 54, 51] ++ List.replicate 360 0

/-- A tar file that holds the file. -/
def tar : List UInt8 := header ++ [0xC3, 0xA9] ++ List.replicate 1022 0

/-- The tar file in one stored block. -/
def tarGz : ByteArray :=
  ⟨([0x1F, 0x8B, 8, 0, 0, 0, 0, 0, 0, 255, 1, 0, 6, 255, 249] ++ tar ++
    [90, 228, 147, 20, 0, 6, 0, 0]).toArray⟩

theorem decompress_tarGz : (Gzip.decompress tarGz).bytes = ⟨tar.toArray⟩ := by
  have hheader : Gzip.header? tarGz = some 10 := by decide +kernel
  have hlast : Deflate.bits tarGz (8 * 10) 1 = .ok 1 := by decide +kernel
  have hkind : Deflate.bits tarGz (8 * 10 + 1) 2 = .ok 0 := by decide +kernel
  have hlength : Deflate.bits tarGz (8 * (10 + 1)) 16 = .ok 1536 := by decide +kernel
  have hcomplement : Deflate.bits tarGz (8 * (10 + 1) + 16) 16 = .ok 63999 := by decide +kernel
  have hfits : 10 + 5 + 1536 ≤ tarGz.size := by decide +kernel
  have hcontent : tarGz.extract (10 + 5) (10 + 5 + 1536) = ⟨tar.toArray⟩ :=
    extract_append rfl (by decide +kernel)
  rw [decompress_stored hlast hkind hlength hcomplement (by decide) hfits hheader]
  exact hcontent

theorem header_isEarly :
    (Tar.Header.mk ⟨header.toArray⟩).IsEarly [97, 46, 114, 98] 0o644 2 where
  more := (Tar.isEnd_ofList header).trans (by decide +kernel)
  sum := by
    simp only [Tar.Header.octal?, Tar.Header.checksum, Tar.Header.text, Tar.field_ofList]
    decide +kernel
  size := by
    simp only [Tar.Header.size?, Tar.Header.octal?, Tar.Header.text, Tar.field_ofList]
    decide +kernel
  memberType := Tar.memberType_zero ((Tar.field_ofList header 156 1).trans (by decide +kernel))
  early := by
    simp only [Tar.Header.isStandard, Tar.field_ofList]
    decide +kernel
  mode := by
    simp only [Tar.Header.mode?, Tar.Header.octal?, Tar.Header.text, Tar.field_ofList]
    decide +kernel
  named := by
    simp only [Tar.Header.name, Tar.Header.isStandard, Tar.Header.text, Tar.field_ofList]
    decide +kernel

def member : Tar.Member := ⟨⟨"a.rb"⟩, .file, some 0o644, ⟨#[0xC3, 0xA9]⟩, true⟩

theorem members_tar {stream : Stream} (h : stream.bytes = ⟨tar.toArray⟩) :
    Tar.members stream = ⟨[member], none⟩ := by
  have hsize : stream.bytes.size = 1536 := by
    rw [h]
    decide +kernel
  have hfirst : stream.block? 0 Tar.blockSize = .ok (some ⟨header.toArray⟩) := by
    have hblock : (ByteArray.mk tar.toArray).extract 0 (0 + Tar.blockSize) =
        ⟨header.toArray⟩ := by
      rw [tar, List.append_assoc, ← List.nil_append header]
      exact extract_append rfl (by decide +kernel)
    rw [Stream.block?, hsize, if_pos (by decide), Stream.available, h, hblock]
  have hcontent : stream.available (0 + Tar.blockSize) 2 = ⟨#[0xC3, 0xA9]⟩ := by
    rw [Stream.available, h]
    exact extract_append (by decide +kernel) rfl
  have hsecond : stream.block? 1024 Tar.blockSize =
      .ok (some ⟨(List.replicate 512 0).toArray⟩) := by
    have hblock : (tar.drop 1024).take (1024 + Tar.blockSize - 1024) = List.replicate 512 0 := by
      decide +kernel
    rw [Stream.block?, hsize, if_pos (by decide), Stream.available, h, extract_ofList, hblock]
  have hend : (Tar.Header.mk ⟨(List.replicate 512 (0 : UInt8)).toArray⟩).isEnd = true :=
    (Tar.isEnd_ofList _).trans (by decide +kernel)
  have hnext : Tar.behind (0 + Tar.blockSize) 2 = 1024 := by decide
  rw [Tar.members, hsize, show 1536 / Tar.blockSize + 2 = 3 + 1 + 1 from rfl,
    Tar.membersFrom_early header_isEarly hfirst (by decide), hcontent, hnext,
    Tar.membersFrom_end hsecond hend]
  rfl

/-! ## What it unpacks to -/

open FileSystem Analyzer

/-- An archive, and a directory for what a run needs for itself. -/
def files (archive : ByteArray) : FileSystem :=
  (FileSystem.empty.insert ["t"] (.directory .all)).insert ["x.tgz"] (.file archive .all)

def setting : Setting := ⟨⟨"/"⟩, ⟨"/t"⟩, ["1"]⟩

def directory : OwnDirectory := ⟨⟨"/t/archive-1"⟩, ["t", "archive-1"]⟩

/-- Asks for what lies at a path. -/
abbrev request (input : Path) : Request := ⟨input, none, none, none⟩

def entry : Entry := .file ⟨#[0xC3, 0xA9]⟩ ⟨true, true, false⟩

def unpacked (archive : ByteArray) : FileSystem :=
  ((files archive).enter directory).insert ["t", "archive-1", "a.rb"] entry

def tree : FileSystem := FileSystem.empty.insert ["a.rb"] entry

theorem subtree_unpacked (archive : ByteArray) :
    (unpacked archive).subtree directory.location = tree := ext_entries rfl

theorem subtree_tree : tree.subtree [] = tree := ext_entries rfl

theorem filesBelow_tree : tree.filesBelow [] = ([["a.rb"]] : List Location) := rfl

/-- Members of which none has to wait for the others are put in their places one by one. -/
theorem unpack_early {archive : ByteArray} {members : List Tar.Member} {left : FileSystem}
    (hmembers : ArchiveKind.tarGz.membersOf archive = .ok ⟨members, none⟩)
    (hearly : ∀ member ∈ members, Unpacking.isLate member = false)
    (hput : Unpacking.putAll directory.location ((files archive).enter directory) members =
      .done left) :
    (files archive).unpack setting ⟨"/x.tgz"⟩ .tarGz = (left, .ok directory) := by
  have hplace : (files archive).freePlace? setting ArchiveKind.tarGz.directoryStart =
      some directory := by
    rfl
  have hread : ((files archive).enter directory).read setting.workingDirectory ⟨"/x.tgz"⟩ =
      .ok archive := by
    rfl
  have hfirst : members.filter (!Unpacking.isLate ·) = members :=
    List.filter_eq_self.mpr fun member hmember => by rw [hearly member hmember]; rfl
  have hlast : members.filter Unpacking.isLate = [] :=
    List.filter_eq_nil_iff.mpr fun member hmember => by simp [hearly member hmember]
  have hrun : Unpacking.run directory.location ((files archive).enter directory)
      ⟨members, none⟩ = .done left := by
    rw [Unpacking.run, Unpacking.late]
    simp only [hfirst, hput, hlast, List.mergeSort_nil]
    rfl
  simp only [unpack, hplace, unpackInto, hread, hmembers, hrun]
  rfl

section
variable {archive : ByteArray} (h : (Gzip.decompress archive).bytes = ⟨tar.toArray⟩)
include h

theorem unpack_files :
    (files archive).unpack setting ⟨"/x.tgz"⟩ .tarGz = (unpacked archive, .ok directory) :=
  unpack_early (congrArg Except.ok (members_tar h)) (by decide) (by rfl)

theorem analyze_files : ∃ outcome,
    (pickyAnalyzer.analyze setting (files archive) (request ⟨"/x.tgz"⟩)).result =
      .ok outcome ∧ outcome.filesAnalyzed = 1 := by
  have hkind : archive? (files archive) setting.workingDirectory ⟨"/x.tgz"⟩ = some .tarGz := by
    rfl
  simp only [analyze, hkind, analyzeArchive, unpack_files h]
  exact ⟨_, rfl, rfl⟩

end

/-- The tree of the archive, put elsewhere. -/
theorem reaches_tree {names : Location} (hnames : ∀ name ∈ names, IsName name)
    (hsome : names ≠ []) (hshort : ∀ name ∈ names, name.size ≤ nameLimit)
    (hpath : (fromRoot names).bytes.size < pathLimit) :
    (under names tree).Reaches setting.workingDirectory (fromRoot names) names
      ((unpacked tarGz).subtree directory.location) := by
  have hreaches := reaches_under hnames hsome hshort hpath setting.workingDirectory tree
  rwa [subtree_tree, ← subtree_unpacked tarGz] at hreaches

end Note

namespace Analyzer

open FileSystem Note

/-- The archive, and a directory with the same file. -/
theorem note_archive_like_directory :
    ∃ outcome otherOutcome,
      (pickyAnalyzer.analyze setting (files tarGz) (request ⟨"/x.tgz"⟩)).result = .ok outcome ∧
      (pickyAnalyzer.analyze setting (under ["d"] tree) (request ⟨"/d"⟩)).result =
        .ok otherOutcome ∧
      Outcome.Moved ⟨"/t/archive-1"⟩ ⟨"/d"⟩ outcome otherOutcome ∧
      otherOutcome.filesAnalyzed = 1 := by
  have hkind : archive? (files tarGz) setting.workingDirectory (request ⟨"/x.tgz"⟩).input =
      some .tarGz := by
    rfl
  have hunpack : (files tarGz).unpack setting (request ⟨"/x.tgz"⟩).input .tarGz =
      (unpacked tarGz, .ok directory) :=
    unpack_files decompress_tarGz
  have hplace : (files tarGz).IsNormalForm false setting.workingDirectory directory.path
      ⟨"/t/archive-1"⟩ :=
    ⟨by rfl, rfl⟩
  have hotherPlace : (under ["d"] tree).IsNormalForm true setting.workingDirectory
      (request ⟨"/d"⟩).input ⟨"/d"⟩ :=
    ⟨by rfl, rfl⟩
  have hname : ∀ name ∈ (["d"] : Location), IsName name := by
    simpa using ⟨by decide, by decide, by decide, by decide⟩
  have hreaches := reaches_tree hname (by simp) (by decide) (by decide)
  have hfits : ∀ place : Path, (below place ["a.rb"]).bytes.size < pathLimit →
      ((unpacked tarGz).subtree directory.location).FitsIn place := by
    intro place hshort names hnames
    rw [subtree_unpacked, filesBelow_tree] at hnames
    obtain rfl := List.mem_singleton.mp hnames
    exact hshort
  obtain ⟨outcome, otherOutcome, hresult, hotherResult, hmoved, -⟩ :=
    archive_like_directory pickyAnalyzer hkind hunpack rfl rfl hplace hotherPlace
      hreaches.leads hreaches.holds (hfits _ (by decide)) (hfits _ (by decide))
  have hone : (pickyAnalyzer.analyze setting (under ["d"] tree)
      (request ⟨"/d"⟩)).result.map (·.filesAnalyzed) = .ok 1 := by
    rfl
  rw [hotherResult] at hone
  exact ⟨outcome, otherOutcome, hresult, hotherResult, hmoved, Except.ok.inj hone⟩

/-! ## Where a tree is not analyzed -/

/-- A name that fills a path of the greatest length when it is repeated. -/
def longName : Bytes := ⟨List.replicate 194 0x64⟩

theorem isName_letters {count : Nat} (h : count ≠ 0) :
    IsName ⟨List.replicate count 0x64⟩ := by
  have hletter : ∀ bytes : Bytes, ⟨List.replicate count 0x64⟩ = bytes → 0x64 ∈ bytes.toList := by
    rintro bytes rfl
    simpa using h
  refine ⟨fun heq => ?_, fun heq => ?_, fun heq => ?_, ?_⟩
  · exact absurd (hletter _ heq) (by decide)
  · exact absurd (hletter _ heq) (by decide)
  · exact absurd (hletter _ heq) (by decide)
  · simp [Bytes.slash]

def longWay : Location := List.replicate 21 longName

/-- The same tree behind a link: the path through the link and back does not lead there without
looking at the link. -/
def linkedFiles : FileSystem :=
  ((under ["u", "d"] tree).insert ["u", "v"] (.directory .all)).insert ["l"] (.link "/u/v")

/-- The file of the archive is not analyzed where its path is too long, nor where the path of its
directory does not lead there in normal form. -/
theorem place_matters :
    (files tarGz).unpack setting ⟨"/x.tgz"⟩ .tarGz = (unpacked tarGz, .ok directory) ∧
    (∃ outcome,
      (pickyAnalyzer.analyze setting (files tarGz) (request ⟨"/x.tgz"⟩)).result = .ok outcome ∧
      outcome.filesAnalyzed = 1) ∧
    ((under longWay tree).Reaches setting.workingDirectory (fromRoot longWay) longWay
        ((unpacked tarGz).subtree directory.location) ∧
      ∃ outcome,
        (pickyAnalyzer.analyze setting (under longWay tree) (request (fromRoot longWay))).result =
          .ok outcome ∧
        outcome.filesAnalyzed = 0) ∧
    linkedFiles.Reaches setting.workingDirectory ⟨"/l/../d"⟩ ["u", "d"]
        ((unpacked tarGz).subtree directory.location) ∧
      ∃ outcome,
        (pickyAnalyzer.analyze setting linkedFiles (request ⟨"/l/../d"⟩)).result = .ok outcome ∧
        outcome.filesAnalyzed = 0 := by
  refine ⟨unpack_files decompress_tarGz, analyze_files decompress_tarGz, ?long, ?linked⟩
  case long =>
    have hall : ∀ name ∈ longWay ++ (["a.rb"] : Location), IsName name := by
      intro name hname
      rcases List.mem_append.mp hname with hname | hname
      · obtain rfl := List.eq_of_mem_replicate hname
        exact isName_letters (by decide)
      · obtain rfl := List.mem_singleton.mp hname
        exact ⟨by decide, by decide, by decide, by decide⟩
    have hnames : ∀ name ∈ longWay, IsName name :=
      fun name hname => hall name (List.mem_append_left _ hname)
    have hsome : longWay ≠ [] := by decide +kernel
    have hshort : ∀ name ∈ longWay, name.size ≤ nameLimit := by decide +kernel
    have hpath : (fromRoot longWay).bytes.size < pathLimit := by
      rw [size_fromRoot hnames hsome]
      decide +kernel
    have hlong : ∀ file ∈ (tree.subtree []).filesBelow [],
        pathLimit ≤ (fromRoot (longWay ++ file)).bytes.size := by
      rw [subtree_tree, filesBelow_tree]
      intro file hfile
      obtain rfl := List.mem_singleton.mp hfile
      rw [size_fromRoot hall (by simp)]
      decide +kernel
    exact ⟨reaches_tree hnames hsome hshort hpath,
      analyze_under_long pickyAnalyzer setting hnames hsome hshort hpath hlong none none⟩
  case linked =>
    have htree : linkedFiles.subtree ["u", "d"] = (unpacked tarGz).subtree directory.location := by
      rw [subtree_unpacked]
      exact ext_entries rfl
    refine ⟨⟨by rfl, ?_⟩, _, by rfl, by rfl⟩
    rw [← htree]
    exact holds_of_get? (by simp) rfl rfl rfl

end Analyzer
end CallSift
