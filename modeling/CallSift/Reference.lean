import CallSift.Source

/-!
# References

A reference is one place of a source that calls something by name: an ordinary
call or a command run through a backtick literal. It carries the name, the text
of the receiver, the texts of the arguments, its extent and its own text.
-/
namespace CallSift

/-- Which form of the source a reference comes from. -/
inductive ReferenceShape where
  | call
  | inlineExecution
  deriving DecidableEq, Repr

/-- An extent of a source: lines count from one, columns count characters from
zero, and the last column is excluded. -/
structure Span where
  line : Nat
  column : Nat
  lastLine : Nat
  lastColumn : Nat
  deriving DecidableEq, Repr

namespace Span

/-- The extent between two byte offsets. -/
def ofOffsets (source : Source) (start stop : Nat) : Span where
  line := source.row start + 1
  column := source.column start
  lastLine := source.row stop + 1
  lastColumn := source.column stop

/-- The end does not come before the start. -/
def Ordered (span : Span) : Prop :=
  span.line < span.lastLine ∨ (span.line = span.lastLine ∧ span.column ≤ span.lastColumn)

instance (span : Span) : Decidable span.Ordered := inferInstanceAs (Decidable (_ ∨ _))

end Span

/-- The receiver and the name joined by one dot, or the name alone. -/
def fullName (qualifier : Option String) (name : String) : String :=
  match qualifier with
  | some receiver => receiver ++ "." ++ name
  | none => name

structure Reference where
  shape : ReferenceShape
  name : String
  /-- Text of the receiver; absent in a call without one. -/
  qualifier : Option String
  /-- Texts of the arguments; absent in a call without any. -/
  arguments : Option (List String)
  span : Span
  text : String
  deriving DecidableEq, Repr

/-- The name under which every backtick literal is reported. -/
def commandName : String := "builtin_xstring"

namespace Reference

def fullName (reference : Reference) : String :=
  CallSift.fullName reference.qualifier reference.name

end Reference
end CallSift
