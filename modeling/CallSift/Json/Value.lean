/-!
# Documents

The value that a configuration or an output file holds, before it is given a
type. A number stays the token it was written as, because only its spelling tells
`1` from `1.0`.
-/
namespace CallSift.Json

inductive Value where
  | null
  | bool (value : Bool)
  /-- A bare token that is not a word: a number, or a date where dates exist. -/
  | token (text : String)
  | string (text : String)
  | array (items : List Value)
  | object (members : List (String × Value))
  /-- A string, or an object with a name, that escapes half of a surrogate pair: well-formed,
  and of no type. -/
  | unpaired

namespace Value

/-- A natural number in decimal digits. -/
def ofNat (n : Nat) : Value := .token (toString n)

def ofInt (n : Int) : Value := .token (toString n)

/-- The value that a member of an object has; the first of its name. -/
def member? (value : Value) (name : String) : Option Value :=
  match value with
  | object members => members.lookup name
  | _ => none

/-! ## Comparing -/

mutual
/-- The same document, token by token. -/
def same : Value → Value → Bool
  | null, null | unpaired, unpaired => true
  | bool value, bool value' => value == value'
  | token text, token text' | string text, string text' => text == text'
  | array items, array items' => sameItems items items'
  | object members, object members' => sameMembers members members'
  | _, _ => false
def sameItems : List Value → List Value → Bool
  | [], [] => true
  | item :: rest, item' :: rest' => same item item' && sameItems rest rest'
  | _, _ => false
def sameMembers : List (String × Value) → List (String × Value) → Bool
  | [], [] => true
  | (name, value) :: rest, (name', value') :: rest' =>
    name == name' && same value value' && sameMembers rest rest'
  | _, _ => false
end

mutual
theorem same_iff : ∀ value value' : Value, same value value' = true ↔ value = value'
  | null, value' | unpaired, value' => by cases value' <;> simp [same]
  | bool _, value' | token _, value' | string _, value' => by cases value' <;> simp [same]
  | array items, value' => by cases value' <;> simp [same, sameItems_iff items]
  | object members, value' => by cases value' <;> simp [same, sameMembers_iff members]
theorem sameItems_iff : ∀ items items' : List Value, sameItems items items' = true ↔ items = items'
  | [], items' => by cases items' <;> simp [sameItems]
  | item :: rest, items' => by
    cases items' <;> simp [sameItems, same_iff item, sameItems_iff rest]
theorem sameMembers_iff : ∀ members members' : List (String × Value),
    sameMembers members members' = true ↔ members = members'
  | [], members' => by cases members' <;> simp [sameMembers]
  | (name, value) :: rest, members' => by
    cases members' <;>
      simp [sameMembers, Prod.ext_iff, same_iff value, sameMembers_iff rest]
end

instance : DecidableEq Value := fun value value' => decidable_of_iff _ (same_iff value value')

end Value
end CallSift.Json
