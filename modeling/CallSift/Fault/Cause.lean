/-!
# Causes of failed file operations

A file operation fails with an error number of the operating system, or because
a text is wanted and the bytes are none.
-/
namespace CallSift

/-- An error of the operating system. -/
structure OsError where
  number : Nat
  deriving DecidableEq, Repr

namespace OsError

def notFound : OsError := ⟨2⟩
def permissionDenied : OsError := ⟨13⟩
def alreadyExists : OsError := ⟨17⟩
def notDirectory : OsError := ⟨20⟩
def isDirectory : OsError := ⟨21⟩
def nameTooLong : OsError := ⟨36⟩
def tooManyLinks : OsError := ⟨40⟩

/-- The wordings of error numbers. -/
def wordings : List (Nat × String) :=
  [(1, "Operation not permitted"), (2, "No such file or directory"), (3, "No such process"),
   (4, "Interrupted system call"), (5, "Input/output error"), (6, "No such device or address"),
   (7, "Argument list too long"), (8, "Exec format error"), (9, "Bad file descriptor"),
   (10, "No child processes"), (11, "Resource temporarily unavailable"),
   (12, "Cannot allocate memory"), (13, "Permission denied"), (14, "Bad address"),
   (15, "Block device required"), (16, "Device or resource busy"), (17, "File exists"),
   (18, "Invalid cross-device link"), (19, "No such device"), (20, "Not a directory"),
   (21, "Is a directory"), (22, "Invalid argument"), (23, "Too many open files in system"),
   (24, "Too many open files"), (25, "Inappropriate ioctl for device"), (26, "Text file busy"),
   (27, "File too large"), (28, "No space left on device"), (29, "Illegal seek"),
   (30, "Read-only file system"), (31, "Too many links"), (32, "Broken pipe"),
   (33, "Numerical argument out of domain"), (34, "Numerical result out of range"),
   (35, "Resource deadlock avoided"), (36, "File name too long"), (37, "No locks available"),
   (38, "Function not implemented"), (39, "Directory not empty"),
   (40, "Too many levels of symbolic links")]

def message (error : OsError) : String :=
  let wording := (wordings.lookup error.number).getD s!"Unknown error {error.number}"
  s!"{wording} (os error {error.number})"

end OsError

/-- Why a file cannot be read or written. -/
inductive IoCause where
  | os (error : OsError)
  /-- The bytes are no UTF-8. -/
  | notText
  | other (reason : String)
  deriving DecidableEq, Repr

namespace IoCause

def message : IoCause → String
  | os error => error.message
  | notText => "stream did not contain valid UTF-8"
  | other reason => reason

end IoCause
end CallSift
