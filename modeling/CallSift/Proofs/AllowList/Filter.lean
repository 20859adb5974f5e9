import CallSift.AllowList.Filter

/-!
# What an allow-list wants

Receivers and names are compared as keys, which are flat texts with dots in them. When
no name has a dot, a key can be cut in one way only, at its last dot, so two keys are equal
just when receivers and names are. Then a filter accepts what its entries say, and
nothing by accident.

* `dotted_inj` and `dotted_ne`: the keys of different pairs differ.
* `fullName_mem_keys` and `bareKey_mem_keys`: what it means that a key is wanted.
* `acceptsName_iff`: a name is accepted when an entry wants it.
* `acceptsName_iff_entry`: and what an entry wants are its own name and its own base.
-/
namespace CallSift

/-! ## Keys with dots -/

theorem append_dot_inj {a b c d : List Char} (hb : '.' ∉ b) (hd : '.' ∉ d) :
    a ++ '.' :: b = c ++ '.' :: d ↔ a = c ∧ b = d := by
  refine ⟨fun h => ?_, fun ⟨hac, hbd⟩ => by rw [hac, hbd]⟩
  -- one side reaches further than the other; what it has beyond must be empty, for otherwise
  -- it would take a dot from the other's name
  rcases List.append_eq_append_iff.mp h with ⟨more, hmore, hrest⟩ | ⟨more, hmore, hrest⟩
  · cases more with
    | nil => simp_all
    | cons first more =>
      simp only [List.cons_append, List.cons.injEq] at hrest
      exact absurd (hrest.2 ▸ List.mem_append_right more List.mem_cons_self) hb
  · cases more with
    | nil => simp_all
    | cons first more =>
      simp only [List.cons_append, List.cons.injEq] at hrest
      exact absurd (hrest.2 ▸ List.mem_append_right more List.mem_cons_self) hd

theorem toList_dotted (receiver name : String) :
    (receiver ++ "." ++ name).toList = receiver.toList ++ '.' :: name.toList := by
  simp

theorem dotted_inj {receiver name base other : String} (hname : '.' ∉ name.toList)
    (hother : '.' ∉ other.toList) :
    receiver ++ "." ++ name = base ++ "." ++ other ↔ receiver = base ∧ name = other := by
  rw [← String.toList_inj, toList_dotted, toList_dotted, append_dot_inj hname hother,
    String.toList_inj, String.toList_inj]

theorem dotted_ne {receiver name other : String} (hother : '.' ∉ other.toList) :
    receiver ++ "." ++ name ≠ other := by
  rintro rfl
  simp at hother

theorem dot_ne {name other : String} (hother : '.' ∉ other.toList) : "." ++ name ≠ other := by
  rintro rfl
  simp at hother

/-! ## The keys of entries -/

/-- The entry is given by its name and its base alone, and its name has no dot. -/
structure ApiEntry.IsPlain (entry : ApiEntry) : Prop where
  name : '.' ∉ entry.name.toList
  fullName : entry.fullName = none ∨ entry.fullName = some ""

theorem ApiEntry.base_eq_none {entry : ApiEntry} :
    entry.base = none ↔ entry.baseType = none ∨ entry.baseType = some "" := by
  unfold base
  cases entry.baseType with
  | none => simp
  | some base => by_cases h : base = "" <;> simp [Option.filter, h]

theorem ApiEntry.IsPlain.qualifiedName {entry : ApiEntry} (h : entry.IsPlain) :
    entry.qualifiedName = CallSift.fullName entry.base entry.name := by
  have hfull : entry.fullName.filter (· ≠ "") = none := by
    rcases h.fullName with hnone | hempty
    · rw [hnone]; rfl
    · rw [hempty]; rfl
  unfold ApiEntry.qualifiedName
  rw [hfull]
  cases hbase : entry.base <;> rfl

/-- Full names are equal just when receivers and names are. -/
theorem fullName_inj {qualifier base : Option String} {name other : String}
    (hname : '.' ∉ name.toList) (hother : '.' ∉ other.toList) :
    fullName qualifier name = fullName base other ↔ qualifier = base ∧ name = other := by
  cases qualifier with
  | none =>
    cases base with
    | none => simp [fullName]
    | some base => simpa [fullName] using (dotted_ne hname).symm
  | some receiver =>
    cases base with
    | none => simpa [fullName] using dotted_ne hother
    | some base => simpa [fullName] using dotted_inj hname hother

namespace Filter

theorem acceptsName_ofAllowList {list : AllowList} {qualifier : Option String} {name : String} :
    (ofAllowList list).acceptsName qualifier name = true ↔
      ∃ entry ∈ list.callEntries,
        lookupKey list.funcOnly qualifier name ∈ entryKeys list.funcOnly entry := by
  simp only [acceptsName, ofAllowList, List.contains_iff_mem, List.mem_flatMap]

/-- By default an entry wants its own receiver and its own name. -/
theorem fullName_mem_keys {entry : ApiEntry} {qualifier : Option String} {name : String}
    (hentry : entry.IsPlain) (hname : '.' ∉ name.toList) :
    lookupKey false qualifier name ∈ entryKeys false entry ↔
      entry.name = name ∧ entry.base = qualifier := by
  have hkeys : lookupKey false qualifier name ∈ entryKeys false entry ↔
      fullName qualifier name = fullName entry.base entry.name := by
    simp [lookupKey, entryKeys, hentry.qualifiedName]
  rw [hkeys, fullName_inj hname hentry.name]
  exact ⟨fun h => ⟨h.2.symm, h.1.symm⟩, fun h => ⟨h.2.symm, h.1.symm⟩⟩

theorem lookupKey_some {receiver : String} (h : receiver ≠ "") (name : String) :
    lookupKey true (some receiver) name = "." ++ name := by
  simp [lookupKey]

/-- When names alone count, an entry wants its name with any receiver; without one, only if the
entry has no base. -/
theorem bareKey_mem_keys {entry : ApiEntry} {qualifier : Option String} {name : String}
    (hentry : entry.IsPlain) (hname : '.' ∉ name.toList) (hempty : qualifier ≠ some "") :
    lookupKey true qualifier name ∈ entryKeys true entry ↔
      entry.name = name ∧ (qualifier ≠ none ∨ entry.base = none) := by
  cases qualifier with
  | none =>
    have hkey : lookupKey true none name = name := rfl
    rw [hkey]
    have hdot : name ≠ "." ++ entry.name := (dot_ne hname).symm
    cases hbase : entry.base with
    | none => simp [entryKeys, ApiEntry.isQualified, hbase, hdot, eq_comm]
    | some base => simp [entryKeys, ApiEntry.isQualified, hbase, hdot]
  | some receiver =>
    have hreceiver : receiver ≠ "" := by simpa using hempty
    rw [lookupKey_some hreceiver]
    have hdot : "." ++ name ≠ entry.name := dot_ne hentry.name
    cases hbase : entry.base with
    | none => simp [entryKeys, ApiEntry.isQualified, hbase, hdot, eq_comm]
    | some base => simp [entryKeys, ApiEntry.isQualified, hbase, eq_comm]

theorem mem_callEntries {list : AllowList} {entry : ApiEntry} :
    entry ∈ list.callEntries ↔ entry ∈ list.apis ∧ entry.kind = .functionDeclRefExpr := by
  simp [AllowList.callEntries]

/-- A name is accepted when one of the entries that match calls wants it. -/
theorem acceptsName_iff {list : AllowList} {qualifier : Option String} {name : String}
    {wants : ApiEntry → Prop} (h : ∀ entry ∈ list.callEntries,
      lookupKey list.funcOnly qualifier name ∈ entryKeys list.funcOnly entry ↔ wants entry) :
    (ofAllowList list).acceptsName qualifier name = true ↔
      ∃ entry ∈ list.apis, entry.kind = .functionDeclRefExpr ∧ wants entry := by
  rw [acceptsName_ofAllowList]
  constructor
  · rintro ⟨entry, hentry, hkey⟩
    obtain ⟨hmem, hkind⟩ := mem_callEntries.mp hentry
    exact ⟨entry, hmem, hkind, (h entry hentry).mp hkey⟩
  · rintro ⟨entry, hmem, hkind, hwants⟩
    have hentry : entry ∈ list.callEntries := mem_callEntries.mpr ⟨hmem, hkind⟩
    exact ⟨entry, hentry, (h entry hentry).mpr hwants⟩

/-- Only the entries that match calls count, in any order and however often. -/
theorem acceptsName_congr {list other : AllowList} (hmode : list.funcOnly = other.funcOnly)
    (h : ∀ entry, entry ∈ list.callEntries ↔ entry ∈ other.callEntries)
    (qualifier : Option String) (name : String) :
    (ofAllowList list).acceptsName qualifier name =
      (ofAllowList other).acceptsName qualifier name := by
  rw [Bool.eq_iff_iff, acceptsName_ofAllowList, acceptsName_ofAllowList, hmode]
  simp only [h]

/-- **Meaning of an allow-list.** Let the entries that match calls be plain, the receiver not
empty, and the name without a dot. By default the name is accepted exactly when such an entry
has this name and this base, and none where there is no receiver. When names alone count, it is
accepted exactly when such an entry has this name, and there is a receiver or the entry has no
base; so all that was accepted by default still is. Other entries, order and repetition of
entries never matter. -/
theorem acceptsName_iff_entry :
    (∀ (list : AllowList) qualifier name, (∀ entry ∈ list.callEntries, entry.IsPlain) →
      qualifier ≠ some "" → '.' ∉ name.toList →
      let exact := ofAllowList { list with funcOnly := false }
      let bare := ofAllowList { list with funcOnly := true }
      (exact.acceptsName qualifier name = true ↔
        ∃ entry ∈ list.apis, entry.kind = .functionDeclRefExpr ∧ entry.name = name ∧
          entry.base = qualifier) ∧
      (bare.acceptsName qualifier name = true ↔
        ∃ entry ∈ list.apis, entry.kind = .functionDeclRefExpr ∧ entry.name = name ∧
          (qualifier ≠ none ∨ entry.baseType = none ∨ entry.baseType = some "")) ∧
      (exact.acceptsName qualifier name = true → bare.acceptsName qualifier name = true)) ∧
    ∀ list other : AllowList, list.funcOnly = other.funcOnly →
      (∀ entry, entry.kind = .functionDeclRefExpr →
        (entry ∈ list.apis ↔ entry ∈ other.apis)) →
      ∀ qualifier name, (ofAllowList list).acceptsName qualifier name =
        (ofAllowList other).acceptsName qualifier name := by
  constructor
  · intro list qualifier name hplain hempty hname exact bare
    have hexact : exact.acceptsName qualifier name = true ↔
        ∃ entry ∈ list.apis, entry.kind = .functionDeclRefExpr ∧ entry.name = name ∧
          entry.base = qualifier :=
      acceptsName_iff fun entry hentry => fullName_mem_keys (hplain entry hentry) hname
    have hbare : bare.acceptsName qualifier name = true ↔
        ∃ entry ∈ list.apis, entry.kind = .functionDeclRefExpr ∧ entry.name = name ∧
          (qualifier ≠ none ∨ entry.baseType = none ∨ entry.baseType = some "") := by
      simp only [← ApiEntry.base_eq_none]
      exact acceptsName_iff fun entry hentry =>
        bareKey_mem_keys (hplain entry hentry) hname hempty
    refine ⟨hexact, hbare, ?_⟩
    intro haccepted
    obtain ⟨entry, hmem, hkind, hsame, hbase⟩ := hexact.mp haccepted
    refine hbare.mpr ⟨entry, hmem, hkind, hsame, ?_⟩
    cases qualifier with
    | none => exact .inr (ApiEntry.base_eq_none.mp hbase)
    | some receiver => exact .inl nofun
  · intro list other hmode hsame
    refine acceptsName_congr hmode fun entry => ?_
    rw [mem_callEntries, mem_callEntries]
    exact and_congr_left (hsame entry)

/-- One entry has a base with a dot in it, one an empty base, and one matches no call. -/
def dottedList : AllowList where
  apis :=
    [⟨.functionDeclRefExpr, "run", some "A.B", none, none⟩,
     ⟨.functionDeclRefExpr, "exit", some "", none, none⟩,
     ⟨.functionDecl, "load", none, none, none⟩]
  funcOnly := false
  saveFeature := false
  smtFormula := none

/-- The dot in the base is no end of the receiver, and `run` needs a receiver all the same when
names alone count. -/
theorem dotted_base_wanted :
    let exact := ofAllowList dottedList
    let bare := ofAllowList { dottedList with funcOnly := true }
    exact.acceptsName (some "A.B") "run" = true ∧ ¬ exact.acceptsName (some "A") "run" = true ∧
    bare.acceptsName (some "A") "run" = true ∧ ¬ bare.acceptsName none "run" = true ∧
    bare.acceptsName none "exit" = true := by
  have hplain : ∀ entry ∈ dottedList.callEntries, entry.IsPlain := by
    intro entry hentry
    have hcases : entry = ⟨.functionDeclRefExpr, "run", some "A.B", none, none⟩ ∨
        entry = ⟨.functionDeclRefExpr, "exit", some "", none, none⟩ := by
      simpa [AllowList.callEntries, dottedList] using hentry
    rcases hcases with rfl | rfl <;> exact ⟨by decide, .inl rfl⟩
  obtain ⟨hmeaning, -⟩ := acceptsName_iff_entry
  have hfull := hmeaning dottedList (some "A.B") "run" hplain (by decide) (by decide)
  have hother := hmeaning dottedList (some "A") "run" hplain (by decide) (by decide)
  have halone := hmeaning dottedList none "run" hplain (by decide) (by decide)
  have hexit := hmeaning dottedList none "exit" hplain (by decide) (by decide)
  refine ⟨hfull.1.mpr (by decide), ?_, hother.2.1.mpr (by decide), ?_, hexit.2.1.mpr (by decide)⟩
  · rw [show dottedList = { dottedList with funcOnly := false } from rfl, hother.1]
    decide
  · rw [halone.2.1]
    decide

end Filter
end CallSift
