import CallSift.Json.Codec
import CallSift.Proofs.Json.Printer
import CallSift.Proofs.Lookup

/-!
# Values kept in documents

A codec keeps a value if nothing of it is lost on the way into a document and back.
The codecs of numbers, texts and cases keep theirs; a list is kept if its items are,
and a record if its fields are: each is written under a name of its own, and one that
is absent is not written at all.

* `Codec.Keeps.roundTrips`: a kept value survives both layouts.
* `keeps_nat`, `keeps_int32`, `keeps_cases`, `keeps_list`: the codecs without names.
* `Members.of?`: the members of a record are its fields.
* `optional_eq`: what is read of a field that may be absent.
-/
namespace CallSift.Json

variable {α : Type}

/-- The document of the value can be printed, is not taken for an absent one, and is read as
the value, in every format. -/
structure Codec.Keeps (codec : Codec α) (a : α) : Prop where
  printable : (codec.encode a).Printable
  present : codec.encode a ≠ .null
  decoded : ∀ format, codec.decode format (codec.encode a) = some a

/-- Read back from its compact text, and from its pretty one with a line feed behind it, the value
is the same. -/
def Codec.RoundTrips (codec : Codec α) (a : α) : Prop :=
  (read? (codec.encode a).compact).bind (codec.decode .json) = some a ∧
    (read? ((codec.encode a).pretty ++ "\n")).bind (codec.decode .json) = some a

theorem Codec.Keeps.roundTrips {codec : Codec α} {a : α} (h : codec.Keeps a) :
    codec.RoundTrips a := by
  constructor
  · rw [read?_compact h.printable]
    exact h.decoded .json
  · rw [read?_pretty h.printable]
    exact h.decoded .json

/-! ## Numbers, texts and lists -/

theorem keeps_nat {n : Nat} (h : n < natBound) : Codec.nat.Keeps n := by
  refine ⟨.token (.inl (isNatural_toString n)), nofun, fun format => ?_⟩
  simp only [Codec.nat, Value.ofNat, natOfDigits?_toString]
  simp [h]

theorem keeps_int32 (n : Int32) : Codec.int32.Keeps n := by
  refine ⟨.token (isInteger_toString n.toInt), nofun, fun format => ?_⟩
  have hbounds : Int32.minValue.toInt ≤ n.toInt ∧ n.toInt ≤ Int32.maxValue.toInt :=
    ⟨n.minValue_le_toInt, n.toInt_le⟩
  simp only [Codec.int32, Value.ofInt, intOfDigits?_toString, Option.bind_some]
  rw [if_pos hbounds, Int32.ofInt_toInt]

theorem keeps_bool (b : Bool) : Codec.bool.Keeps b := ⟨.bool b, nofun, fun _ => rfl⟩

theorem keeps_string (text : String) : Codec.string.Keeps text :=
  ⟨.string text, nofun, fun _ => rfl⟩

theorem keeps_anyString (text : Option String) : ∀ t ∈ text, Codec.string.Keeps t :=
  fun t _ => keeps_string t

theorem keeps_list {item : Codec α} {items : List α} (h : ∀ a ∈ items, item.Keeps a) :
    (Codec.list item).Keeps items := by
  refine ⟨.array ?_, nofun, fun format => ?_⟩
  · intro value hvalue
    obtain ⟨a, ha, rfl⟩ := List.mem_map.mp hvalue
    exact (h a ha).printable
  · simp only [Codec.list]
    induction items with
    | nil => rfl
    | cons a items ih =>
      have hrest := ih fun b hb => h b (List.mem_cons_of_mem a hb)
      rw [List.map_cons, List.mapM_cons, (h a List.mem_cons_self).decoded format, hrest]
      rfl

/-! ## Cases -/

theorem lookup_eq_some {β : Type} {name : String} {b : β} {entries : List (String × β)}
    (hnodup : (entries.map (·.1)).Nodup) : entries.lookup name = some b ↔ (name, b) ∈ entries :=
  lookup_eq_some_iff_mem ((List.pairwise_map.mp hnodup).imp Ne.symm)

/-- Cases with different names are kept. -/
theorem keeps_cases [DecidableEq α] {names : List (String × α)}
    (hnodup : (names.map (·.1)).Nodup) {a : α} (h : a ∈ names.map (·.2)) :
    (Codec.cases names).Keeps a := by
  refine ⟨.string _, nofun, fun format => ?_⟩
  cases hfind : names.find? fun entry => entry.2 = a with
  | none =>
    obtain ⟨entry, hentry, heq⟩ := List.mem_map.mp h
    exact absurd (decide_eq_true heq) (List.find?_eq_none.mp hfind entry hentry)
  | some entry =>
    have hsame : entry.2 = a := by simpa using List.find?_some hfind
    have hlookup : names.lookup entry.1 = some entry.2 :=
      (lookup_eq_some hnodup).mpr (List.mem_of_find?_eq_some hfind)
    simp only [Codec.cases, hfind, Option.map_some, Option.getD_some, hlookup, hsame]

/-! ## Records -/

/-- Members that stand for fields with the given names, in this order; some may be absent. -/
structure Members (names : List String) (members : List (String × Value)) : Prop where
  named : (members.map (·.1)).Sublist names
  printable : ∀ member ∈ members, member.2.Printable

theorem Members.append {names others : List String} {members more : List (String × Value)}
    (h : Members names members) (hmore : Members others more) :
    Members (names ++ others) (members ++ more) := by
  refine ⟨?_, ?_⟩
  · rw [List.map_append]
    exact h.named.append hmore.named
  · intro member hmember
    rcases List.mem_append.mp hmember with hmember | hmember
    · exact h.printable member hmember
    · exact hmore.printable member hmember

section
variable {codec : Codec α} {name : String}

theorem Codec.Keeps.member {a : α} (h : codec.Keeps a) :
    Members [name] (codec.member name a) := by
  refine ⟨List.Sublist.refl _, ?_⟩
  intro member hmember
  cases List.mem_singleton.mp hmember
  exact h.printable

theorem members_optional {a : Option α} (h : ∀ b ∈ a, codec.Keeps b) :
    Members [name] (codec.optionalMember name a) := by
  cases a with
  | none => exact ⟨List.nil_sublist _, nofun⟩
  | some a => exact (h a rfl).member

@[simp] theorem lookup_member (a : α) (key : String) :
    (codec.member name a).lookup key = if key = name then some (codec.encode a) else none := by
  by_cases h : key = name
  · simp [Codec.member, h]
  · have hne : (key == name) = false := beq_eq_false_iff_ne.mpr h
    simp [Codec.member, List.lookup_cons, hne, h]

@[simp] theorem lookup_optionalMember (a : Option α) (key : String) :
    (codec.optionalMember name a).lookup key = if key = name then a.map codec.encode else none := by
  cases a with
  | none => simp [Codec.optionalMember]
  | some a => simp [Codec.optionalMember]

end

/-- Fields under different names are read from the members that stand for them. -/
theorem Members.of? {names : List String} {members : List (String × Value)}
    (h : Members names members) (hnodup : names.Nodup) (format : Format) :
    Fields.of? names format (.object members) = some ⟨format, members⟩ := by
  have hknown : members.filter (fun member => names.contains member.1) = members := by
    refine List.filter_eq_self.mpr fun member hmember => ?_
    exact List.contains_iff_mem.mpr (h.named.subset (List.mem_map_of_mem hmember))
  have hdistinct : (members.map (·.1)).Nodup := h.named.nodup hnodup
  simp only [Fields.of?, fields?, hknown, if_pos hdistinct, Option.map_some]

section
variable {codec : Codec α} {format : Format} {members : List (String × Value)} {name : String}

theorem optional_eq {a : Option α} (h : ∀ b ∈ a, codec.Keeps b)
    (hlookup : members.lookup name = a.map codec.encode) :
    (Fields.mk format members).optional name codec = some a := by
  unfold Fields.optional
  cases a with
  | none => simp [hlookup]
  | some a =>
    have hpresent := (h a rfl).present
    rw [hlookup, Option.map_some]
    split
    · next heq => exact absurd (Option.some.inj heq) hpresent
    · next heq => cases heq
    · next heq =>
      cases heq
      rw [(h a rfl).decoded format, Option.map_some]

end

end CallSift.Json
