import CallSift.Fault.Basic
import CallSift.Record.Basic
import CallSift.Walk.Basic

/-!
# The log of a run

Everything that a run reports on the way, in the order in which it happens.
`LogEvent.text` is the wording of an event; only the summary mentions the time
that went by.
-/
namespace CallSift

inductive LogLevel where
  | trace
  | debug
  | info
  | warn
  | error
  deriving DecidableEq, Repr

namespace LogLevel

def text : LogLevel → String
  | trace => "TRACE"
  | debug => "DEBUG"
  | info => "INFO"
  | warn => "WARN"
  | error => "ERROR"

/-- Whether events of a level are shown to a user, who may have asked for more. -/
def isShown (verbose : Bool) : LogLevel → Bool
  | trace => false
  | debug => verbose
  | info | warn | error => true

end LogLevel

inductive LogEvent where
  | featuresNotCollected
  | unpacking (archive : Path)
  | unpacked (archive directory : Path)
  | unlisted (input directory : Path) (error : OsError)
  | noInputs (input : Path) (language : Language)
  | discovered (inputs files : Nat) (input root : Path)
  | analyzing (file : Path)
  | finding (finding : Finding)
  | accepted (count : Nat) (file : Path)
  | skipped (file : Path) (fault : Fault)
  /-- A file that is no input cannot be counted. -/
  | uncounted (file : Path) (cause : IoCause)
  | extracted (references analyzed inputs skipped : Nat)
  | wrote (file : Path)
  | finished (references files skipped : Nat)
  deriving DecidableEq, Repr

namespace LogEvent

def level : LogEvent → LogLevel
  | featuresNotCollected | unpacked .. | discovered .. | accepted .. | uncounted .. => .debug
  | unpacking _ | analyzing _ | extracted .. | wrote _ | finished .. => .info
  | unlisted .. | noInputs .. => .warn
  | finding _ => .trace
  | skipped _ (.traversal ..) => .error
  | skipped .. => .warn

/-- The wording of a finding of a walk. -/
def findingText : Finding → String
  | .reference reference => s!"accepted {reference.fullName} at line {reference.span.line}"
  | .methodBody name line => "found a method body for " ++ name ++ s!" at line {line}"
  | .singletonMethodBody object name line =>
    "found a singleton method body for " ++ object ++ "." ++ name ++ s!" at line {line}"

/-- The wording of an event; `elapsed` are the milliseconds since the run began. -/
def text (elapsed : String) : LogEvent → String
  | featuresNotCollected =>
    "save_feature is set in the lookup config; feature data is not collected"
  | unpacking archive => s!"unpacking {archive.text}"
  | unpacked archive directory => s!"Unpacked {archive.text} into {directory.text}"
  | unlisted input directory error =>
    s!"Skipping unreadable entry under {input.text}: " ++
      s!"IO error for operation on {directory.text}: " ++
      error.message
  | noInputs input language => s!"No input files from {input.text} for language " ++ language.name
  | discovered inputs files input root =>
    s!"Discovered {inputs} input files ({files} total) under {input.text}, root {root.text}"
  | analyzing file => s!"analyzing {file.text}"
  | finding found => findingText found
  | accepted count file => s!"{count} references accepted in {file.text}"
  | skipped file fault => s!"Skipping {file.text}: {fault.message}"
  | uncounted file cause => s!"Failed to read file {file.text} for composition: {cause.message}"
  | extracted references analyzed inputs failed =>
    s!"Extracted {references} references from {analyzed} of {inputs} files in " ++ elapsed ++
      s!"ms ({failed} skipped)"
  | wrote file => s!"wrote {file.text}"
  | finished references files failed =>
    s!"{references} references from {files} files, {failed} files skipped"

/-- An event as a line of the log. -/
def line (elapsed : String) (event : LogEvent) : String :=
  event.level.text ++ " " ++ event.text elapsed

end LogEvent
end CallSift
