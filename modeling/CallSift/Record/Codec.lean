import CallSift.AllowList.Codec
import CallSift.Fault.Basic
import CallSift.Json.Codec
import CallSift.Record.Basic

/-!
# Records as documents

How records, package results, compositions and diagnostics stand in output
files. Absent optional members are left out; empty ones are written.
-/
namespace CallSift

open Json

namespace Language

def codec : Codec Language := .cases [("RUBY", .ruby)]

end Language

namespace ReferenceShape

def codec : Codec ReferenceShape := .cases [("Call", .call), ("InlineExecution", .inlineExecution)]

end ReferenceShape

namespace Stage

def names : List (String × Stage) :=
  [("discovery", .discovery), ("read", .read), ("parse", .parse), ("traversal", .traversal),
   ("normalize", .normalize), ("output", .output)]

def codec : Codec Stage := .cases names

end Stage

namespace Span

def encode (span : Span) : Value :=
  .object (Codec.nat.member "line" span.line ++ Codec.nat.member "column" span.column ++
    Codec.nat.member "last_line" span.lastLine ++ Codec.nat.member "last_column" span.lastColumn)

def decode (format : Format) (value : Value) : Option Span := do
  let fields ← Fields.of? ["line", "column", "last_line", "last_column"] format value
  let line ← fields.required "line" .nat
  let column ← fields.required "column" .nat
  let lastLine ← fields.required "last_line" .nat
  let lastColumn ← fields.required "last_column" .nat
  return { line, column, lastLine, lastColumn }

def codec : Codec Span := ⟨encode, decode⟩

end Span

namespace FileInfo

def encode (info : FileInfo) : Value :=
  .object (Codec.string.member "filename" info.filename ++
    Codec.string.member "relpath" info.relpath ++ Codec.string.member "file" info.file ++
    Codec.string.member "directory" info.directory)

def decode (format : Format) (value : Value) : Option FileInfo := do
  let fields ← Fields.of? ["filename", "relpath", "file", "directory"] format value
  let filename ← fields.required "filename" .string
  let relpath ← fields.required "relpath" .string
  let file ← fields.required "file" .string
  let directory ← fields.required "directory" .string
  return { filename, relpath, file, directory }

def codec : Codec FileInfo := ⟨encode, decode⟩

end FileInfo

namespace SourceLocation

def encode (location : SourceLocation) : Value :=
  .object (Codec.nat.member "row" location.row ++ Codec.nat.member "column" location.column ++
    FileInfo.codec.member "file_info" location.fileInfo)

def decode (format : Format) (value : Value) : Option SourceLocation := do
  let fields ← Fields.of? ["row", "column", "file_info"] format value
  let row ← fields.required "row" .nat
  let column ← fields.required "column" .nat
  let fileInfo ← fields.required "file_info" FileInfo.codec
  return { row, column, fileInfo }

def codec : Codec SourceLocation := ⟨encode, decode⟩

end SourceLocation

namespace SourceRange

def encode (range : SourceRange) : Value :=
  .object (SourceLocation.codec.member "start" range.start ++
    SourceLocation.codec.member "end" range.stop)

def decode (format : Format) (value : Value) : Option SourceRange := do
  let fields ← Fields.of? ["start", "end"] format value
  let start ← fields.required "start" SourceLocation.codec
  let stop ← fields.required "end" SourceLocation.codec
  return { start, stop }

def codec : Codec SourceRange := ⟨encode, decode⟩

end SourceRange

namespace Record

def encode (record : Record) : Value :=
  .object (ReferenceKind.codec.member "type" record.kind ++
    Codec.string.member "name" record.name ++
    Codec.string.optionalMember "base_type" record.baseType ++
    Codec.string.member "full_name" record.fullName ++
    (Codec.list .string).optionalMember "arguments" record.arguments ++
    Codec.string.member "source" record.source ++
    SourceRange.codec.member "range" record.range)

def decode (format : Format) (value : Value) : Option Record := do
  let fields ← Fields.of?
    ["type", "name", "base_type", "full_name", "arguments", "source", "range"] format value
  let kind ← fields.required "type" ReferenceKind.codec
  let name ← fields.required "name" .string
  let baseType ← fields.optional "base_type" .string
  let fullName ← fields.required "full_name" .string
  let arguments ← fields.optional "arguments" (.list .string)
  let source ← fields.required "source" .string
  let range ← fields.required "range" SourceRange.codec
  return { kind, name, baseType, fullName, arguments, source, range }

def codec : Codec Record := ⟨encode, decode⟩

end Record

namespace PackageResult

def encode (result : PackageResult) : Value :=
  .object (Codec.string.member "pkg_name" result.name ++
    Codec.string.optionalMember "pkg_version" result.version ++
    Language.codec.member "language" result.language ++
    AllowList.codec.optionalMember "config" result.allowList ++
    (Codec.list Record.codec).member "api_results" result.records)

def decode (format : Format) (value : Value) : Option PackageResult := do
  let fields ← Fields.of? ["pkg_name", "pkg_version", "language", "config", "api_results"]
    format value
  let name ← fields.required "pkg_name" .string
  let version ← fields.optional "pkg_version" .string
  let language ← fields.required "language" Language.codec
  let allowList ← fields.optional "config" AllowList.codec
  let records ← fields.defaulted "api_results" (.list Record.codec) []
  return { name, version, language, allowList, records }

def codec : Codec PackageResult := ⟨encode, decode⟩

end PackageResult

namespace PackageResults

def encode (results : PackageResults) : Value :=
  .object ((Codec.list PackageResult.codec).member "pkgs" results.packages)

def decode (format : Format) (value : Value) : Option PackageResults := do
  let fields ← Fields.of? ["pkgs"] format value
  let packages ← fields.defaulted "pkgs" (.list PackageResult.codec) []
  return { packages }

def codec : Codec PackageResults := ⟨encode, decode⟩

end PackageResults

namespace FileComposition

def encode (composition : FileComposition) : Value :=
  .object (Codec.string.member "Name" composition.name ++
    Codec.nat.member "LoC" composition.lines ++ Codec.bool.member "Native" composition.native)

def decode (format : Format) (value : Value) : Option FileComposition := do
  let fields ← Fields.of? ["Name", "LoC", "Native"] format value
  let name ← fields.required "Name" .string
  let lines ← fields.required "LoC" .nat
  let native ← fields.required "Native" .bool
  return { name, lines, native }

def codec : Codec FileComposition := ⟨encode, decode⟩

end FileComposition

namespace Composition

def encode (composition : Composition) : Value :=
  .object ((Codec.list FileComposition.codec).member "Files" composition.files)

def decode (format : Format) (value : Value) : Option Composition := do
  let fields ← Fields.of? ["Files"] format value
  let files ← fields.required "Files" (.list FileComposition.codec)
  return { files }

def codec : Codec Composition := ⟨encode, decode⟩

end Composition

namespace Diagnostic

/-- The document of a diagnostic whose path is a text. There is none for another path, which stands
here as it is shown. -/
def encode (diagnostic : Diagnostic) : Value :=
  .object (Codec.string.member "path" diagnostic.path.text ++
    Stage.codec.member "stage" diagnostic.stage ++
    Codec.string.member "message" diagnostic.message)

def decode (format : Format) (value : Value) : Option Diagnostic := do
  let fields ← Fields.of? ["path", "stage", "message"] format value
  let path ← fields.required "path" .string
  let stage ← fields.required "stage" Stage.codec
  let message ← fields.required "message" .string
  return { path := ⟨path⟩, stage, message }

def codec : Codec Diagnostic := ⟨encode, decode⟩

end Diagnostic
end CallSift
