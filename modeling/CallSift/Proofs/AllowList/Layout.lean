import CallSift.AllowList.Codec
import CallSift.AllowList.Filter
import CallSift.Proofs.Json.Codec
import CallSift.Proofs.Json.Grammar
import Mathlib.Data.List.Forall2

/-!
# How an allow-list is laid out does not matter

Allow-lists are shared with tools that write other members, and every tool writes its members in
an order of its own. What is read depends on the members by their names alone, and on those
with known names alone.

* `Extends`: members in another order, with others among them. `Extends.of?` says that the
  fields read of a record are the same, and `decode_extends` so is an entry.
* `Relaid` relates two documents of an allow-list, in which this happens to the list and to any of
  its entries. `decode_relaid`: they are read as the same list.
* `layout_irrelevant`: so are all texts that spell them, whatever the other members hold.
* `unpaired_name_rejected`: a name must be a text, known or not.
-/
namespace CallSift

namespace Json

/-- The members in another order, and among them others that have none of the names. -/
def Extends (names : List String) (members members' : List (String × Value)) : Prop :=
  ∃ others : List (String × Value), (∀ other ∈ others, other.1 ∉ names) ∧
    members'.Perm (members ++ others)

/-- The members with these names are the same, up to their order. -/
theorem Extends.known {names : List String} {members members' : List (String × Value)}
    (h : Extends names members members') :
    (members'.filter fun member => names.contains member.1).Perm
      (members.filter fun member => names.contains member.1) := by
  obtain ⟨others, hothers, hperm⟩ := h
  have hnone : others.filter (fun member => names.contains member.1) = [] := by
    refine List.filter_eq_nil_iff.mpr fun other ho => ?_
    simpa using hothers other ho
  have hknown := hperm.filter fun member => names.contains member.1
  rwa [List.filter_append, hnone, List.append_nil] at hknown

/-- Members with different names are found in any order. -/
theorem lookup_perm {members members' : List (String × Value)}
    (hnodup : (members.map (·.1)).Nodup) (h : members'.Perm members) (name : String) :
    members'.lookup name = members.lookup name := by
  have hnodup' : (members'.map (·.1)).Nodup := (h.map _).nodup_iff.mpr hnodup
  refine Option.ext fun value => ?_
  rw [lookup_eq_some hnodup, lookup_eq_some hnodup', h.mem_iff]

/-- The fields have the same values under all names. -/
structure Fields.Same (fields fields' : Fields) : Prop where
  format : fields'.format = fields.format
  lookup : ∀ name, fields'.members.lookup name = fields.members.lookup name

theorem Extends.of? {names : List String} {format : Format} {fields : Fields}
    {members members' : List (String × Value)} (h : Extends names members members')
    (hfields : Fields.of? names format (.object members) = some fields) :
    ∃ fields', Fields.of? names format (.object members') = some fields' ∧
      fields.Same fields' := by
  have hknown := h.known
  unfold Fields.of? fields? at hfields ⊢
  simp only at hfields ⊢
  split at hfields
  · next hnodup =>
    cases hfields
    rw [if_pos ((hknown.map (·.1)).nodup_iff.mpr hnodup)]
    exact ⟨_, rfl, ⟨rfl, lookup_perm hnodup hknown⟩⟩
  · cases hfields

end Json

open Json

namespace ApiEntry

/-- The names of an entry's members. -/
def memberNames : List String := ["type", "name", "base_type", "full_name", "id"]

theorem decode_extends {format : Format} {entry : ApiEntry}
    {members members' : List (String × Value)} (hextends : Extends memberNames members members')
    (h : decode format (.object members) = some entry) :
    decode format (.object members') = some entry := by
  unfold decode at h ⊢
  obtain ⟨fields, hfields, h⟩ := Option.bind_eq_some_iff.mp h
  obtain ⟨fields', hfields', hsame⟩ := hextends.of? hfields
  refine Option.bind_eq_some_iff.mpr ⟨fields', hfields', ?_⟩
  simpa only [Fields.defaulted, Fields.required, Fields.optional, hsame.format, hsame.lookup]
    using h

/-- The document of an entry, unless it is an object: then with its members in another order and
with others among them. -/
inductive Relaid : Value → Value → Prop
  | same (value : Value) : Relaid value value
  | object {members members' : List (String × Value)} : Extends memberNames members members' →
      Relaid (.object members) (.object members')

theorem Relaid.decode {format : Format} {entry : ApiEntry} {value value' : Value}
    (h : Relaid value value') (hentry : decode format value = some entry) :
    decode format value' = some entry := by
  cases h with
  | same => exact hentry
  | object hextends => exact decode_extends hextends hentry

end ApiEntry

namespace AllowList

/-- The names of an allow-list's members. -/
def memberNames : List String := ["apis", "func_only", "save_feature", "smt_formula"]

/-- The value of a member: the same, or that of the entries with each of them laid out anew. -/
inductive ValueRelaid (name : String) : Value → Value → Prop
  | same (value : Value) : ValueRelaid name value value
  | entries {items items' : List Value} : name = "apis" →
      List.Forall₂ ApiEntry.Relaid items items' → ValueRelaid name (.array items) (.array items')

def MemberRelaid (member member' : String × Value) : Prop :=
  member.1 = member'.1 ∧ ValueRelaid member.1 member.2 member'.2

/-- The document of an allow-list with its entries laid out anew, its members in another order
and others among them. -/
inductive Relaid : Value → Value → Prop
  | object {members between members' : List (String × Value)} :
      List.Forall₂ MemberRelaid members between → Extends memberNames between members' →
      Relaid (.object members) (.object members')

theorem lookup_relaid {name : String} : ∀ {members members' : List (String × Value)},
    List.Forall₂ MemberRelaid members members' →
      Option.Rel (ValueRelaid name) (members.lookup name) (members'.lookup name)
  | _, _, .nil => .none
  | (key, value) :: _, (key', value') :: _, .cons hmember hrest => by
    obtain ⟨hkey, hvalue⟩ := hmember
    simp only at hkey hvalue
    subst hkey
    rw [List.lookup_cons, List.lookup_cons]
    cases hname : name == key with
    | true =>
      rw [eq_of_beq hname]
      exact .some hvalue
    | false => exact lookup_relaid hrest

theorem keys_relaid {members members' : List (String × Value)}
    (h : List.Forall₂ MemberRelaid members members') :
    members.map (·.1) = members'.map (·.1) := by
  induction h with
  | nil => rfl
  | cons hmember _ ih => rw [List.map_cons, List.map_cons, hmember.1, ih]

/-- Laid out anew, the members stand for fields as before. -/
theorem of?_relaid {format : Format} {fields : Fields} {members members' : List (String × Value)}
    (h : List.Forall₂ MemberRelaid members members')
    (hfields : Fields.of? memberNames format (.object members) = some fields) :
    ∃ fields', Fields.of? memberNames format (.object members') = some fields' ∧
      fields'.format = fields.format ∧ ∀ name, Option.Rel (ValueRelaid name)
        (fields.members.lookup name) (fields'.members.lookup name) := by
  have hknown : List.Forall₂ MemberRelaid
      (members.filter fun member => memberNames.contains member.1)
      (members'.filter fun member => memberNames.contains member.1) := by
    refine List.rel_filter ?_ h
    intro member member' hmember
    simp only [hmember.1]
  unfold Fields.of? fields? at hfields ⊢
  simp only at hfields ⊢
  split at hfields
  · next hnodup =>
    cases hfields
    rw [keys_relaid hknown] at hnodup
    rw [if_pos hnodup]
    exact ⟨_, rfl, rfl, fun name => lookup_relaid hknown⟩
  · cases hfields

section
variable {fields fields' : Fields} {α : Type}

/-- A member that is not the one of the entries has the value it had. -/
theorem lookup_eq_of_rel {name : String} (hname : name ≠ "apis") {value value' : Option Value}
    (h : Option.Rel (ValueRelaid name) value value') : value' = value := by
  cases h with
  | none => rfl
  | some h =>
    cases h with
    | same => rfl
    | entries heq _ => exact absurd heq hname

theorem entries_relaid {format : Format} : ∀ {items items' : List Value} {entries : List ApiEntry},
    List.Forall₂ ApiEntry.Relaid items items' →
      items.mapM (ApiEntry.decode format) = some entries →
      items'.mapM (ApiEntry.decode format) = some entries
  | _, _, _, .nil, h => h
  | item :: items, item' :: items', entries, .cons hitem hrest, h => by
    rw [List.mapM_cons] at h ⊢
    obtain ⟨entry, hentry, h⟩ := Option.bind_eq_some_iff.mp h
    obtain ⟨others, hothers, h⟩ := Option.bind_eq_some_iff.mp h
    exact Option.bind_eq_some_iff.mpr ⟨entry, hitem.decode hentry,
      Option.bind_eq_some_iff.mpr ⟨others, entries_relaid hrest hothers, h⟩⟩

theorem apis_relaid {apis : List ApiEntry} (hformat : fields'.format = fields.format)
    (hrel : Option.Rel (ValueRelaid "apis") (fields.members.lookup "apis")
      (fields'.members.lookup "apis"))
    (h : fields.defaulted "apis" (.list ApiEntry.codec) [] = some apis) :
    fields'.defaulted "apis" (.list ApiEntry.codec) [] = some apis := by
  unfold Fields.defaulted at h ⊢
  rw [hformat]
  generalize fields.members.lookup "apis" = value at h hrel
  generalize fields'.members.lookup "apis" = value' at hrel ⊢
  cases hrel with
  | none => exact h
  | some hvalue =>
    cases hvalue with
    | same => exact h
    | entries _ hitems => exact entries_relaid hitems h

end

/-- Laid out anew, a document is read as the same allow-list. -/
theorem decode_relaid {format : Format} {list : AllowList} {value value' : Value}
    (hrelaid : Relaid value value') (h : decode format value = some list) :
    decode format value' = some list := by
  obtain ⟨hmembers, hextends⟩ := hrelaid
  unfold decode at h ⊢
  obtain ⟨fields, hfields, h⟩ := Option.bind_eq_some_iff.mp h
  obtain ⟨apis, hapis, h⟩ := Option.bind_eq_some_iff.mp h
  obtain ⟨between, hbetween, hformat, hlookup⟩ := of?_relaid hmembers hfields
  obtain ⟨fields', hfields', hsame⟩ := hextends.of? hbetween
  have hapis' := apis_relaid (hsame.format.trans hformat)
    ((hsame.lookup "apis").symm ▸ hlookup "apis") hapis
  have hother : ∀ name, name ≠ "apis" →
      fields'.members.lookup name = fields.members.lookup name := by
    intro name hname
    rw [hsame.lookup, lookup_eq_of_rel hname (hlookup name)]
  refine Option.bind_eq_some_iff.mpr ⟨fields', hfields',
    Option.bind_eq_some_iff.mpr ⟨apis, hapis', ?_⟩⟩
  simpa only [Fields.defaulted, Fields.optional, hsame.format, hformat,
    hother "func_only" (by decide), hother "save_feature" (by decide),
    hother "smt_formula" (by decide)] using h

/-- **Layout.** Let a text be read as an allow-list, and let another spell the same document with
the members of the list, and of entries that are objects, in any order, and with any members among
them whose names are none of the known ones. Then the other text is read as the same list, and the
filter that comes of it accepts the same. What the further members hold does not
matter, as long as it is well-formed. -/
theorem layout_irrelevant {text text' : String} {value value' : Value} {list : AllowList}
    (h : ofJson? text = some list) (hspells : Spells text value) (hrelaid : Relaid value value')
    (hspells' : Spells text' value') :
    ofJson? text' = some list ∧ ∀ qualifier name,
      (ofJson? text').map (fun other => (Filter.ofAllowList other).acceptsName qualifier name) =
        some ((Filter.ofAllowList list).acceptsName qualifier name) := by
  have hdecode : decode .json value = some list := by
    rwa [ofJson?, read?_iff.mpr hspells] at h
  have hlist : ofJson? text' = some list := by
    rw [ofJson?, read?_iff.mpr hspells']
    exact decode_relaid hrelaid hdecode
  refine ⟨hlist, fun qualifier name => ?_⟩
  rw [hlist, Option.map_some]

def sharedText : String :=
  "\x7b\"apis\":[\x7b\"name\":\"eval\",\"id\":1\x7d],\"func_only\":true\x7d"

def sharedMembers : List (String × Value) :=
  [("apis", .array [.object [("name", .string "eval"), ("id", .token "1")]]),
   ("func_only", .bool true)]

/-- The list of `sharedText` in another order, with members of another tool in it and in its
entry. -/
def annotatedText : String :=
  "\x7b \"func_only\":true, \"x\":[1e5, \x7b\"apis\":null\x7d],
    \"apis\":[\x7b\"id\":1, \"y\":\"\\ud800\", \"name\":\"eval\"\x7d]\x7d"

def annotatedEntry : List (String × Value) :=
  [("id", .token "1"), ("y", .unpaired), ("name", .string "eval")]

def annotatedMembers : List (String × Value) :=
  [("func_only", .bool true), ("x", .array [.token "1e5", .object [("apis", .null)]]),
   ("apis", .array [.object annotatedEntry])]

theorem annotated_relaid : Relaid (.object sharedMembers) (.object annotatedMembers) := by
  have hentry : Extends ApiEntry.memberNames [("name", .string "eval"), ("id", .token "1")]
      annotatedEntry :=
    ⟨[("y", .unpaired)], by decide,
      @List.perm_append_comm (String × Value) [("id", .token "1"), ("y", .unpaired)]
        [("name", .string "eval")]⟩
  have hentries : List.Forall₂ MemberRelaid sharedMembers
      [("apis", .array [.object annotatedEntry]), ("func_only", .bool true)] :=
    .cons ⟨rfl, .entries rfl (.cons (.object hentry) .nil)⟩ (.cons ⟨rfl, .same _⟩ .nil)
  refine .object hentries ⟨[("x", .array [.token "1e5", .object [("apis", .null)]])], ?_, ?_⟩
  · intro other hother
    rw [List.mem_singleton.mp hother]
    decide
  · exact @List.perm_append_comm (String × Value)
      [("func_only", .bool true), ("x", .array [.token "1e5", .object [("apis", .null)]])]
      [("apis", .array [.object annotatedEntry])]

/-- A member of a known name below another member, and half of a character in an entry. -/
theorem annotated_read : ofJson? annotatedText = ofJson? sharedText ∧
    (ofJson? annotatedText).map
      (fun other => (Filter.ofAllowList other).acceptsName (some "Kernel") "eval") = some true := by
  have h : ofJson? sharedText =
      some ⟨[⟨.functionDeclRefExpr, "eval", none, none, some 1⟩], true, false, none⟩ := by
    decide +kernel
  have hshared : read? sharedText = some (.object sharedMembers) := by decide +kernel
  have hannotated : read? annotatedText = some (.object annotatedMembers) := by decide +kernel
  obtain ⟨hread, haccepts⟩ := layout_irrelevant h (read?_iff.mp hshared) annotated_relaid
    (read?_iff.mp hannotated)
  refine ⟨hread.trans h.symm, (haccepts (some "Kernel") "eval").trans ?_⟩
  decide +kernel

/-- A member whose name escapes half of a surrogate pair is well-formed and of no known name, and
yet the whole text is rejected. -/
theorem unpaired_name_rejected :
    ofJson? "\x7b\x7d" = some ⟨[], false, false, none⟩ ∧
    (∃ member, SpellsMember member none (.token "0") ∧
      "\x7b\"\\ud800\":0\x7d".toList = '\x7b' :: (member ++ ['\x7d'])) ∧
    ofJson? "\x7b\"\\ud800\":0\x7d" = none := by
  have hkey : Quotable ['\\', 'u', 'd', '8', '0', '0'] :=
    @Quotable.code ['d', '8', '0', '0'] [] rfl (List.all_eq_true.mp (by decide)) .nil
  have hname : textOf ['\\', 'u', 'd', '8', '0', '0'] = none := by decide +kernel
  have hzero : IsNumber ['0'] :=
    .plain (@IsUnsigned.parts ['0'] [] []
      ⟨List.cons_ne_nil _ _, List.all_eq_true.mp (by decide), fun _ h => by cases h; rfl⟩
      .absent .absent)
  have hvalue : SpellsPadded ['0'] (.token "0") :=
    @SpellsPadded.blanks [] ['0'] [] _ blank_nil (.number hzero) blank_nil
  have hmember := @SpellsMember.colon [] _ [] _ _ blank_nil hkey blank_nil hvalue
  rw [hname] at hmember
  exact ⟨by decide +kernel, ⟨_, hmember, by decide +kernel⟩, by decide +kernel⟩

end AllowList
end CallSift
