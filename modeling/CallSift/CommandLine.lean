import CallSift.AllowList.File
import CallSift.Run

/-!
# The command line

The words of a command are bytes. Options with a value take it from the next word,
from behind an equals sign, or, in their short form, from the rest of the word.
Each may appear once; there are no other arguments. A path may be any bytes, names
and versions are texts.

* `CommandLine.ofWords?` reads the words of a command.
* `CommandLine.run` does what a command asks.
-/
namespace CallSift

/-- Options that take a value. -/
inductive ValueOption where
  | input
  | output
  | config
  | root
  | packageName
  | packageVersion
  | composition
  deriving DecidableEq, Repr

namespace ValueOption

def all : List ValueOption :=
  [input, output, config, root, packageName, packageVersion, composition]

def long : ValueOption → String
  | input => "inpath"
  | output => "outfile"
  | config => "config"
  | root => "root"
  | packageName => "package-name"
  | packageVersion => "package-version"
  | composition => "composition"

def short? : ValueOption → Option Char
  | input => some 'i'
  | output => some 'o'
  | config => some 'c'
  | root => some 'b'
  | packageName => some 'n'
  | packageVersion => some 'v'
  | composition => none

/-- The value is a path, which cannot be empty. -/
def takesPath : ValueOption → Bool
  | packageName | packageVersion => false
  | _ => true

end ValueOption

/-- What one or two words of a command say. -/
inductive Setter where
  | value (option : ValueOption) (bytes : Bytes)
  | verbose
  deriving DecidableEq, Repr

structure CommandLine where
  request : Request
  outputs : Outputs
  config : Option Path
  /-- Log more. -/
  verbose : Bool
  deriving DecidableEq, Repr

namespace CommandLine

/-! ## Reading -/

def dash : UInt8 := 0x2D

def equalsSign : UInt8 := 0x3D

/-- A word that can be the value of the option before it. -/
def isValue (word : Bytes) : Bool := word.toList.head? ≠ some dash || word = "-"

/-- What a word begins to say: an option whose value follows, or something complete. -/
inductive Word where
  | option (option : ValueOption)
  | setter (setter : Setter)
  deriving DecidableEq, Repr

/-- A long option: what stands behind its dashes. -/
def longWord? (bytes : List UInt8) : Option Word :=
  let name : Bytes := ⟨bytes.takeWhile (· ≠ equalsSign)⟩
  let option? := ValueOption.all.find? fun option => name = option.long
  match bytes.dropWhile (· ≠ equalsSign), option? with
  | [], some option => some (.option option)
  | _ :: value, some option => some (.setter (.value option ⟨value⟩))
  | [], none => if name = "verbose" then some (.setter .verbose) else none
  | _ :: _, none => none

/-- A short option: its letter and what stands behind it. -/
def shortWord? (letter : UInt8) (rest : List UInt8) : Option Word :=
  (ValueOption.all.find? (·.short?.map Char.toUInt8 = some letter)).map fun option =>
    match rest with
    | [] => .option option
    | first :: value =>
      .setter (.value option ⟨if first = equalsSign then value else first :: value⟩)

def word? (word : Bytes) : Option Word :=
  match word.toList with
  | first :: second :: rest =>
    if first ≠ dash then none
    else if second = dash then longWord? rest
    else shortWord? second rest
  | _ => none

/-- Reads the words of a command. Two dashes end the options. -/
def setters? : List Bytes → Option (List Setter)
  | [] => some []
  | first :: rest =>
    if first = "--" ∧ rest = [] then some []
    else
      match word? first, rest with
      | some (.setter setter), rest => (setters? rest).map (setter :: ·)
      | some (.option option), value :: rest =>
        if isValue value then (setters? rest).map (.value option value :: ·) else none
      | _, _ => none

/-- No option appears twice. -/
def isSingle (setters : List Setter) : Bool :=
  setters.count .verbose ≤ 1 &&
    ValueOption.all.all fun option =>
      setters.countP (fun | .value other _ => other = option | .verbose => false) ≤ 1

/-- No path is empty. -/
def hasPaths (setters : List Setter) : Bool :=
  setters.all fun
    | .value option bytes => !option.takesPath || bytes ≠ .empty
    | .verbose => true

/-- Names and versions are texts. -/
def hasTexts (setters : List Setter) : Bool :=
  setters.all fun
    | .value option bytes => option.takesPath || bytes.text?.isSome
    | .verbose => true

/-- The value given for an option. -/
def valueOf (setters : List Setter) (option : ValueOption) : Option Bytes :=
  setters.findSome? fun
    | .value other bytes => if other = option then some bytes else none
    | .verbose => none

/-- The command that the words give, if they are well-formed. -/
def ofWords? (words : List Bytes) : Option CommandLine := do
  let setters ← setters? words
  if isSingle setters && hasPaths setters && hasTexts setters then
    let path := fun option => (valueOf setters option).map Path.mk
    let text := fun option => (valueOf setters option).bind Bytes.text?
    let input ← path .input
    let results ← path .output
    return {
      request :=
        { input, root := path .root, packageName := text .packageName
          packageVersion := text .packageVersion }
      outputs := { results, composition := path .composition }
      config := path .config
      verbose := setters.contains .verbose }
  else none

/-! ## Doing -/

/-- How a command ends. -/
inductive Ending where
  | success
  /-- The words are no command. -/
  | misused
  /-- The run failed. -/
  | failed (message : String)
  deriving DecidableEq, Repr

/-- The number that the caller gets. -/
def Ending.code : Ending → Nat
  | success => 0
  | failed _ => 1
  | misused => 2

/-- The file system that a command leaves, what it logged, and how it ended. -/
structure Effect where
  fileSystem : FileSystem
  log : List LogEvent
  ending : Ending

/-- The allow-list that a command names. -/
def allowList (command : CommandLine) (setting : Setting) (fs : FileSystem) :
    Except AllowListFault (Option AllowList) :=
  match command.config with
  | none => .ok none
  | some path => (fs.loadAllowList setting.workingDirectory path).map some

/-- Does what a command asks. -/
def run (command : CommandLine) (setting : Setting) (parse : String → Option Node)
    (fs : FileSystem) : Effect :=
  match command.allowList setting fs with
  | .error fault => ⟨fs, [], .failed fault.message⟩
  | .ok allowList =>
    let analyzer : Analyzer := { allowList, limit := defaultDepth, parse }
    let activity := analyzer.run setting fs command.request command.outputs
    let log := analyzer.events ++ activity.log
    match activity.result with
    | .error _ =>
      ⟨activity.fileSystem, log, .failed s!"astgen failed for {command.request.input.text}"⟩
    | .ok outcome =>
      ⟨activity.fileSystem, log ++ [.finished outcome.package.records.length
        outcome.filesAnalyzed outcome.diagnostics.length], .success⟩

/-- Does what the words of a command ask, if they ask anything. -/
def runWords (words : List Bytes) (setting : Setting) (parse : String → Option Node)
    (fs : FileSystem) : Effect :=
  match ofWords? words with
  | none => ⟨fs, [], .misused⟩
  | some command => command.run setting parse fs

end CommandLine
end CallSift
