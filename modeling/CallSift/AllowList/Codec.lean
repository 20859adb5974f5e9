import CallSift.AllowList.Basic
import CallSift.Json.Codec
import CallSift.Json.Printer
import CallSift.Json.Reader
import CallSift.Toml.Reader

/-!
# Allow-lists as documents

The members of an allow-list and of its entries. Everything but an entry's name
may be left out: an entry without a kind matches calls, an allow-list without
entries matches nothing.
-/
namespace CallSift

open Json

namespace ReferenceKind

def codec : Codec ReferenceKind := .cases
  [("FUNCTION_DECL_REF_EXPR", .functionDeclRefExpr), ("FUNCTION_DECL", .functionDecl),
   ("INVOKE_EXPR", .invokeExpr), ("NEW_EXPR", .newExpr), ("CAST_EXPR", .castExpr),
   ("INSTANCE_OF_EXPR", .instanceOfExpr), ("NEW_ARRAY_EXPR", .newArrayExpr),
   ("NEW_MULTI_ARRAY_EXPR", .newMultiArrayExpr)]

end ReferenceKind

namespace ApiEntry

def encode (entry : ApiEntry) : Value :=
  .object (ReferenceKind.codec.member "type" entry.kind ++
    Codec.string.member "name" entry.name ++
    Codec.string.optionalMember "base_type" entry.baseType ++
    Codec.string.optionalMember "full_name" entry.fullName ++
    Codec.int32.optionalMember "id" entry.id)

def decode (format : Format) (value : Value) : Option ApiEntry := do
  let fields ← Fields.of? ["type", "name", "base_type", "full_name", "id"] format value
  let kind ← fields.defaulted "type" ReferenceKind.codec .functionDeclRefExpr
  let name ← fields.required "name" .string
  let baseType ← fields.optional "base_type" .string
  let fullName ← fields.optional "full_name" .string
  let id ← fields.optional "id" .int32
  return { kind, name, baseType, fullName, id }

def codec : Codec ApiEntry := ⟨encode, decode⟩

end ApiEntry

namespace AllowList

def encode (list : AllowList) : Value :=
  .object ((Codec.list ApiEntry.codec).member "apis" list.apis ++
    Codec.bool.member "func_only" list.funcOnly ++
    Codec.bool.member "save_feature" list.saveFeature ++
    Codec.string.optionalMember "smt_formula" list.smtFormula)

def decode (format : Format) (value : Value) : Option AllowList := do
  let fields ← Fields.of? ["apis", "func_only", "save_feature", "smt_formula"] format value
  let apis ← fields.defaulted "apis" (.list ApiEntry.codec) []
  let funcOnly ← fields.defaulted "func_only" .bool false
  let saveFeature ← fields.defaulted "save_feature" .bool false
  let smtFormula ← fields.optional "smt_formula" .string
  return { apis, funcOnly, saveFeature, smtFormula }

def codec : Codec AllowList := ⟨encode, decode⟩

/-- The allow-list that a JSON text holds. -/
def ofJson? (text : String) : Option AllowList := (Json.read? text).bind (decode .json)

/-- The allow-list that a TOML text holds. -/
def ofToml? (text : String) : Option AllowList := (Toml.read? text).bind (decode .toml)

end AllowList
end CallSift
