import CallSift.FileSystem.Basic
import CallSift.Log

/-!
# Activities

An activity leaves a file system, has logged events, and ends with an answer or a
fault. A fault keeps what was changed and logged before.
-/
namespace CallSift

structure Activity (α : Type) where
  fileSystem : FileSystem
  log : List LogEvent
  result : Except Fault α

namespace Activity

/-- Goes on from the file system left by an answer, and logs behind it. -/
def andThen {α β : Type} (activity : Activity α) (next : FileSystem → α → Activity β) :
    Activity β :=
  match activity.result with
  | .error fault => { activity with result := .error fault }
  | .ok answer =>
    let rest := next activity.fileSystem answer
    { rest with log := activity.log ++ rest.log }

end Activity
end CallSift
