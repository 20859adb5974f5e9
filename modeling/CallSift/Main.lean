import CallSift.CommandLine
import CallSift.Syntax.Document

/-!
# The program

Takes the files that a command names into a file system, reads the trees of their
texts from standard input, one document a line, and does what the command asks.
The files that have changed are written back; archives are unpacked in memory.
-/
namespace CallSift.Disk

/-- What stands at a place of the disk. -/
inductive Found where
  | nothing
  | file (content : ByteArray)
  | directory (names : List String)

/-- Looks at a place. Below the one that was named, links are passed over. -/
def look (named : Bool) (path : String) : IO Found := do
  let place := (← IO.currentDir) / path
  try
    let data ← if named then place.metadata else place.symlinkMetadata
    match data.type with
    | .file => return .file (← IO.FS.readBinFile place)
    | .dir => return .directory ((← place.readDir).toList.map (·.fileName))
    | _ => return .nothing
  catch _ => return .nothing

def textOf (location : Location) : String :=
  String.join (location.map ("/" ++ ·.text))

/-- Takes in what stands at a location and below it. -/
partial def takeBelow (named : Bool) (fs : FileSystem) (location : Location) :
    IO FileSystem := do
  match ← look named (textOf location) with
  | .nothing => return fs
  | .file content => return fs.insert location (.file content .all)
  | .directory names =>
    names.foldlM (fun fs name => takeBelow false fs (location ++ [Bytes.ofText name]))
      (fs.insert location (.directory .all))

/-- Takes in the directories that names lead through, and answers where they end. -/
def takeWay (fs : FileSystem) (names : List Bytes) : IO (FileSystem × Location) :=
  names.foldlM
    (fun (fs, here) (name : Bytes) => do
      let next := if name = "." then here else if name = ".." then here.dropLast else here ++ [name]
      match ← look true (textOf next) with
      | .directory _ => return (fs.insert next (.directory .all), next)
      | _ => return (fs, next))
    (fs, [])

/-- Takes in what a path names; of a path for output only the place itself. -/
def takePath (workingDirectory : Path) (deep : Bool) (fs : FileSystem) (path : Path) :
    IO FileSystem := do
  let (fs, location) ← takeWay fs (workingDirectory.push path).names
  if deep then takeBelow true fs location
  else
    match ← look true (textOf location) with
    | .file content => return fs.insert location (.file content .all)
    | _ => return fs

/-- Takes in all that a command names. -/
def takeCommand (workingDirectory : Path) (command : CommandLine) : IO FileSystem := do
  let (fs, _) ← takeWay .empty workingDirectory.names
  let fs ← takePath workingDirectory true fs command.request.input
  let fs ← command.config.toList.foldlM (takePath workingDirectory true) fs
  (command.outputs.results :: command.outputs.composition.toList).foldlM
    (takePath workingDirectory false) fs

/-- Writes back the files that have changed. -/
def writeBack (before after : FileSystem) : IO Unit :=
  after.entries.forM fun (location, entry) =>
    match entry with
    | .file content _ =>
      if before.get? location = some entry then return
      else do IO.FS.writeBinFile ((← IO.currentDir) / textOf location) content
    | _ => return

/-- The texts with trees that stand on the lines of a stream. -/
partial def parsedTexts (stream : IO.FS.Stream) (texts : List ParsedText) :
    IO (List ParsedText) := do
  let line ← stream.getLine
  if line.isEmpty then return texts
  else parsedTexts stream ((ParsedText.ofLine? line).toList ++ texts)

/-- Does what a command asks, and answers its number for the caller. -/
def runCommand (command : CommandLine) : IO UInt32 := do
  let begun ← IO.monoMsNow
  let workingDirectory : Path := ⟨(← IO.currentDir).toString⟩
  let before ← takeCommand workingDirectory command
  let texts ← parsedTexts (← IO.getStdin) []
  let before := before.insert ["tmp"] (.directory .all)
  let setting : Setting :=
    ⟨workingDirectory, ⟨"/tmp"⟩, (List.range 1000).map (Bytes.ofText ∘ toString)⟩
  let effect := command.run setting (ParsedText.lookup texts) before
  let elapsed := toString ((← IO.monoMsNow) - begun)
  (effect.log.filter (·.level.isShown command.verbose)).forM fun event =>
    IO.eprintln (event.line elapsed)
  writeBack before effect.fileSystem
  if let .failed message := effect.ending then IO.eprintln ("Error: " ++ message)
  return effect.ending.code.toUInt32

end CallSift.Disk

def main (words : List String) : IO UInt32 := do
  match CallSift.CommandLine.ofWords? (words.map CallSift.Bytes.ofText) with
  | some command => CallSift.Disk.runCommand command
  | none =>
    IO.eprintln "error: the arguments are no command"
    return CallSift.CommandLine.Ending.misused.code.toUInt32
