import CallSift.Text.Bytes

/-!
# Names as bytes

What a file system calls by name, it calls by bytes. Most names are a text in
UTF-8, but any other bytes may be met, and they are no text.

* `Bytes.ofText` are the bytes of a text; a text stands for them.
* `Bytes.text` is how bytes are shown, `Bytes.text?` the text that they are.
-/
namespace CallSift

@[ext]
structure Bytes where
  ofList ::
  toList : List UInt8
  deriving DecidableEq, Repr

namespace Bytes

def empty : Bytes := ⟨[]⟩

@[simp] theorem toList_empty : empty.toList = [] := rfl

@[simp] theorem toList_eq_nil {bytes : Bytes} : bytes.toList = [] ↔ bytes = empty :=
  Bytes.ext_iff.symm

def size (bytes : Bytes) : Nat := bytes.toList.length

instance : Append Bytes := ⟨fun a b => ⟨a.toList ++ b.toList⟩⟩

@[simp] theorem toList_append (a b : Bytes) : (a ++ b).toList = a.toList ++ b.toList := rfl

@[simp] theorem empty_append (bytes : Bytes) : empty ++ bytes = bytes := rfl

@[simp] theorem append_eq_empty {a b : Bytes} : a ++ b = empty ↔ a = empty ∧ b = empty := by
  simp only [Bytes.ext_iff, toList_append, toList_empty, List.append_eq_nil_iff]

@[simp] theorem size_append (a b : Bytes) : (a ++ b).size = a.size + b.size :=
  List.length_append

def ofText (text : String) : Bytes := ⟨text.toUTF8.data.toList⟩

instance : Coe String Bytes := ⟨ofText⟩

/-- Bytes as they are shown: what is no character is replaced. -/
def text (bytes : Bytes) : String := Text.ofBytes bytes.toList

/-- The text that the bytes are, if they are one. -/
def text? (bytes : Bytes) : Option String := Text.ofBytes? bytes.toList

/-- The byte between the names of a path. -/
def slash : UInt8 := 0x2F

def dot : UInt8 := 0x2E

@[simp] theorem toList_slash : ("/" : Bytes).toList = [slash] := rfl

@[simp] theorem toList_current : ("." : Bytes).toList = [dot] := rfl

@[simp] theorem toList_parent : (".." : Bytes).toList = [dot, dot] := rfl

end Bytes
end CallSift
