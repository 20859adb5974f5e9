import CallSift.Proofs.Json.Quoted
import CallSift.Proofs.Json.Reader

/-!
# The reader reads a grammar

Which texts are documents, and which value each of them holds, said without a reader: values,
items and members with blanks and commas around them. Names and texts may escape half of a
surrogate pair, and numbers stay as they are written.

* `SpellsValue`, `SpellsPadded`, `SpellsItems`, `SpellsMember` and `SpellsMembers`: the grammar;
  `Spells` is that of whole texts.
* `completes`: all that the grammar spells is read, and `sound`: nothing else is. Both
  are inductions on the fuel, with a step for each of the three readers: `nextValue`, `nextItems`
  and `nextMembers`.
* `read?_iff`: a text is read as a value exactly when it spells this value.
-/
namespace CallSift.Json

/-- The value of a quoted text. -/
def quotedValue : Option String → Value
  | some text => .string text
  | none => .unpaired

/-- The value of an object; it has no members when one of their names is no text. -/
def objectOf : Option (List (String × Value)) → Value
  | some members => .object members
  | none => .unpaired

/-- A member in front of others. -/
def consMember (name : Option String) (value : Value) (members : Option (List (String × Value))) :
    Option (List (String × Value)) :=
  name.bind fun name => members.map fun members => (name, value) :: members

mutual
inductive SpellsValue : List Char → Value → Prop
  | nullWord : SpellsValue ['n', 'u', 'l', 'l'] .null
  | trueWord : SpellsValue ['t', 'r', 'u', 'e'] (.bool true)
  | falseWord : SpellsValue ['f', 'a', 'l', 's', 'e'] (.bool false)
  | number {cs : List Char} : IsNumber cs → SpellsValue cs (.token (String.ofList cs))
  | quoted {cs : List Char} : Quotable cs →
      SpellsValue ('"' :: (cs ++ ['"'])) (quotedValue (textOf cs))
  | emptyArray {gap : List Char} : Blank gap → SpellsValue ('[' :: (gap ++ [']'])) (.array [])
  | array {cs : List Char} {items : List Value} : SpellsItems cs items →
      SpellsValue ('[' :: (cs ++ [']'])) (.array items)
  | emptyObject {gap : List Char} : Blank gap →
      SpellsValue ('\x7b' :: (gap ++ ['\x7d'])) (.object [])
  | object {cs : List Char} {members : Option (List (String × Value))} :
      SpellsMembers cs members → SpellsValue ('\x7b' :: (cs ++ ['\x7d'])) (objectOf members)
/-- A value with blanks around it. -/
inductive SpellsPadded : List Char → Value → Prop
  | blanks {before cs after : List Char} {value : Value} : Blank before → SpellsValue cs value →
      Blank after → SpellsPadded (before ++ (cs ++ after)) value
/-- One or more items with commas between them. -/
inductive SpellsItems : List Char → List Value → Prop
  | last {cs : List Char} {item : Value} : SpellsPadded cs item → SpellsItems cs [item]
  | more {cs rest : List Char} {item : Value} {items : List Value} : SpellsPadded cs item →
      SpellsItems rest items → SpellsItems (cs ++ ',' :: rest) (item :: items)
/-- A member: its name, if that is a text, and its value. -/
inductive SpellsMember : List Char → Option String → Value → Prop
  | colon {before key between cs : List Char} {value : Value} : Blank before → Quotable key →
      Blank between → SpellsPadded cs value →
      SpellsMember (before ++ '"' :: (key ++ '"' :: (between ++ ':' :: cs))) (textOf key) value
/-- One or more members with commas between them. -/
inductive SpellsMembers : List Char → Option (List (String × Value)) → Prop
  | last {cs : List Char} {name : Option String} {value : Value} : SpellsMember cs name value →
      SpellsMembers cs (consMember name value (some []))
  | more {cs rest : List Char} {name : Option String} {value : Value}
      {members : Option (List (String × Value))} : SpellsMember cs name value →
      SpellsMembers rest members → SpellsMembers (cs ++ ',' :: rest) (consMember name value members)
end

/-- A whole text spells a value. -/
def Spells (text : String) (value : Value) : Prop := SpellsPadded text.toList value

/-! ## Blanks -/

theorem skipBlanks_split (cs : List Char) : ∃ gap, Blank gap ∧ cs = gap ++ skipBlanks cs :=
  ⟨cs.takeWhile isBlank, fun _ hc => List.mem_takeWhile_imp hc,
    List.takeWhile_append_dropWhile.symm⟩

theorem Blank.append {gap more : List Char} (h : Blank gap) (hmore : Blank more) :
    Blank (gap ++ more) := by
  intro c hc
  rcases List.mem_append.mp hc with hc | hc
  · exact h c hc
  · exact hmore c hc

/-- What follows a value that is part of another. -/
def IsMark (c : Char) : Prop := c = ',' ∨ c = ']' ∨ c = '\x7d'

theorem IsMark.not_blank {c : Char} (h : IsMark c) : isBlank c = false := by
  rcases h with rfl | rfl | rfl <;> rfl

theorem IsMark.skipBlanks {c : Char} (h : IsMark c) {gap : List Char} (hgap : Blank gap)
    (rest : List Char) : skipBlanks (gap ++ c :: rest) = c :: rest := by
  rw [skipBlanks_append hgap, skipBlanks_cons h.not_blank]

theorem IsMark.ends {c : Char} (h : IsMark c) {gap : List Char} (hgap : Blank gap)
    (rest : List Char) : Ends (gap ++ c :: rest) :=
  ends_append hgap (ends_cons (.inr h) rest)

theorem isBlank_of_number {c : Char} (h : isDigit c = true ∨ c = '-') :
    isBlank c = false ∧ c ≠ ']' := by
  constructor
  · rw [Bool.eq_false_iff, Ne, isBlank_iff]
    rintro (rfl | rfl | rfl | rfl) <;> revert h <;> decide
  · rintro rfl
    revert h
    decide

/-- A value begins with a character of its own, which does not close an array. -/
theorem SpellsValue.head {cs : List Char} {value : Value} (h : SpellsValue cs value) :
    ∃ c tail, cs = c :: tail ∧ isBlank c = false ∧ c ≠ ']' := by
  cases h with
  | number h =>
    obtain ⟨c, tail, rfl, hc⟩ := h.head
    obtain ⟨hblank, hclose⟩ := isBlank_of_number hc
    exact ⟨c, tail, rfl, hblank, hclose⟩
  | nullWord | trueWord | falseWord | quoted | emptyArray | array | emptyObject | object =>
    exact ⟨_, _, rfl, by decide, by decide⟩

theorem SpellsPadded.head {cs : List Char} {value : Value} (h : SpellsPadded cs value) :
    ∃ c tail, c ≠ ']' ∧ ∀ rest, skipBlanks (cs ++ rest) = c :: (tail ++ rest) := by
  obtain @⟨before, inner, after, _, hbefore, hinner, -⟩ := h
  obtain ⟨c, tail, rfl, hblank, hc⟩ := hinner.head
  refine ⟨c, tail ++ after, hc, fun rest => ?_⟩
  simp [skipBlanks_append hbefore, skipBlanks_cons hblank]

theorem SpellsItems.head {cs : List Char} {items : List Value} (h : SpellsItems cs items) :
    ∃ c tail, c ≠ ']' ∧ ∀ rest, skipBlanks (cs ++ rest) = c :: (tail ++ rest) := by
  cases h with
  | last h => exact h.head
  | @more inner more _ _ h _ =>
    obtain ⟨c, tail, hc, hskip⟩ := h.head
    exact ⟨c, tail ++ ',' :: more, hc, fun rest => by simp [hskip]⟩

theorem SpellsMember.head {cs : List Char} {name : Option String} {value : Value}
    (h : SpellsMember cs name value) :
    ∃ tail, ∀ rest, skipBlanks (cs ++ rest) = '"' :: (tail ++ rest) := by
  obtain @⟨before, key, between, inner, _, hbefore, -, -, -⟩ := h
  refine ⟨key ++ '"' :: (between ++ ':' :: inner), fun rest => ?_⟩
  simp [skipBlanks_append hbefore, skipBlanks_cons (c := '"') rfl]

theorem SpellsMembers.head {cs : List Char} {members : Option (List (String × Value))}
    (h : SpellsMembers cs members) :
    ∃ tail, ∀ rest, skipBlanks (cs ++ rest) = '"' :: (tail ++ rest) := by
  cases h with
  | last h => exact h.head
  | @more inner more _ _ _ h _ =>
    obtain ⟨tail, hskip⟩ := h.head
    exact ⟨tail ++ ',' :: more, fun rest => by simp [hskip]⟩

/-! ## All that is spelled is read -/

/-- With this much fuel, whatever is short enough is read. -/
structure Completes (fuel : Nat) : Prop where
  value : ∀ {cs : List Char} {value : Value} (rest : List Char), SpellsValue cs value →
    Ends rest → cs.length < fuel → readValue fuel (cs ++ rest) = some (value, rest)
  items : ∀ {cs : List Char} {items : List Value} (acc : List Value) (rest : List Char),
    SpellsItems cs items → cs.length + 1 < fuel →
    readItems fuel acc (skipBlanks (cs ++ ']' :: rest)) = some (.array (acc.reverse ++ items), rest)
  members : ∀ {cs : List Char} {members : Option (List (String × Value))}
    (acc : Option (List (String × Value))) (rest : List Char),
    SpellsMembers cs members → cs.length + 1 < fuel →
    readMembers fuel acc (skipBlanks (cs ++ '\x7d' :: rest)) =
      some (ofMembers (acc.bind fun acc => members.map fun members => members.reverse ++ acc), rest)

theorem Completes.padded {fuel : Nat} (h : Completes fuel) {cs : List Char} {value : Value}
    (hspells : SpellsPadded cs value) (hfuel : cs.length < fuel) {c : Char} (hc : IsMark c)
    (rest : List Char) : ∃ after, Blank after ∧
      readValue fuel (skipBlanks (cs ++ c :: rest)) = some (value, after ++ c :: rest) := by
  obtain @⟨before, inner, after, _, hbefore, hinner, hafter⟩ := hspells
  refine ⟨after, hafter, ?_⟩
  have hskip : skipBlanks (inner ++ (after ++ c :: rest)) = inner ++ (after ++ c :: rest) := by
    obtain ⟨first, tail, rfl, hfirst, -⟩ := hinner.head
    exact skipBlanks_cons hfirst _
  simp only [List.length_append] at hfuel
  rw [List.append_assoc, List.append_assoc, skipBlanks_append hbefore, hskip]
  exact h.value _ hinner (hc.ends hafter rest) (by omega)

/-- A member is read up to the mark behind it. -/
theorem Completes.member {fuel : Nat} (h : Completes fuel) {cs : List Char} {name : Option String}
    {value : Value} (hspells : SpellsMember cs name value) (hfuel : cs.length < fuel) {c : Char}
    (hc : IsMark c) (rest : List Char) : ∃ tail behind after, Blank after ∧
      skipBlanks (cs ++ c :: rest) = '"' :: tail ∧ readName tail = some (name, behind) ∧
      readValue fuel behind = some (value, after ++ c :: rest) := by
  obtain @⟨before, key, between, inner, _, hbefore, hkey, hbetween, hinner⟩ := hspells
  simp only [List.length_append, List.length_cons] at hfuel
  obtain ⟨after, hafter, hread⟩ := h.padded hinner (by omega) hc rest
  refine ⟨key ++ '"' :: (between ++ ':' :: (inner ++ c :: rest)), _, after, hafter, ?_, ?_, hread⟩
  · simp [skipBlanks_append hbefore, skipBlanks_cons (c := '"') rfl]
  · simp [readName, readText_append hkey, skipBlanks_append hbetween,
      skipBlanks_cons (c := ':') rfl]

section
variable {fuel : Nat}

theorem Completes.array (ih : Completes fuel) {cs : List Char} {items : List Value}
    (rest : List Char) (h : SpellsItems cs items) (hfuel : cs.length + 1 < fuel) :
    readValue (fuel + 1) ('[' :: (cs ++ ']' :: rest)) = some (.array items, rest) := by
  have hread := ih.items [] rest h hfuel
  obtain ⟨c, tail, hc, hskip⟩ := h.head
  rw [readValue]
  rw [hskip] at hread ⊢
  split
  · next heq =>
    cases heq
    exact absurd rfl hc
  · exact hread

theorem Completes.object (ih : Completes fuel) {cs : List Char}
    {members : Option (List (String × Value))} (rest : List Char) (h : SpellsMembers cs members)
    (hfuel : cs.length + 1 < fuel) :
    readValue (fuel + 1) ('\x7b' :: (cs ++ '\x7d' :: rest)) = some (objectOf members, rest) := by
  have hread := ih.members (some []) rest h hfuel
  obtain ⟨tail, hskip⟩ := h.head
  rw [readValue]
  rw [hskip] at hread ⊢
  refine hread.trans ?_
  cases members <;> simp [ofMembers, objectOf]

/-- One more unit of fuel reads a value whose items or members are read without it. -/
theorem Completes.nextValue (ih : Completes fuel) {cs : List Char} {value : Value}
    (rest : List Char) (hspells : SpellsValue cs value) (hrest : Ends rest)
    (hfuel : cs.length < fuel + 1) : readValue (fuel + 1) (cs ++ rest) = some (value, rest) := by
  cases hspells with
  | nullWord | trueWord | falseWord => rfl
  | number h =>
    have hread := readNumber_append h hrest
    obtain ⟨c, tail, rfl, hc⟩ := h.head
    exact (readValue_number hc fuel (tail ++ rest)).trans hread
  | @quoted cs h =>
    rw [List.cons_append, List.append_assoc, List.singleton_append, readValue, readText_append h]
    cases textOf cs <;> rfl
  | emptyArray h =>
    rw [List.cons_append, List.append_assoc, List.singleton_append, readValue]
    simp [skipBlanks_append h, skipBlanks_cons (c := ']') rfl]
  | @array cs items h =>
    simp only [List.length_append, List.length_cons] at hfuel
    rw [List.cons_append, List.append_assoc, List.singleton_append]
    exact ih.array rest h (by omega)
  | emptyObject h =>
    rw [List.cons_append, List.append_assoc, List.singleton_append, readValue]
    simp [skipBlanks_append h, skipBlanks_cons (c := '\x7d') rfl]
  | @object cs members h =>
    simp only [List.length_append, List.length_cons] at hfuel
    rw [List.cons_append, List.append_assoc, List.singleton_append]
    exact ih.object rest h (by omega)

theorem Completes.nextItems (ih : Completes fuel) {cs : List Char} {items : List Value}
    (acc : List Value) (rest : List Char) (hspells : SpellsItems cs items)
    (hfuel : cs.length + 1 < fuel + 1) :
    readItems (fuel + 1) acc (skipBlanks (cs ++ ']' :: rest)) =
      some (.array (acc.reverse ++ items), rest) := by
  cases hspells with
  | last h =>
    obtain ⟨after, hafter, hread⟩ := ih.padded h (by omega) (c := ']') (.inr (.inl rfl)) rest
    rw [readItems, hread]
    simp [IsMark.skipBlanks (c := ']') (.inr (.inl rfl)) hafter]
  | @more inner more item items h hmore =>
    simp only [List.length_append, List.length_cons] at hfuel
    rw [List.append_assoc, List.cons_append]
    obtain ⟨after, hafter, hread⟩ := ih.padded h (by omega) (c := ',') (.inl rfl)
      (more ++ ']' :: rest)
    rw [readItems, hread]
    simp only [IsMark.skipBlanks (c := ',') (.inl rfl) hafter]
    rw [ih.items (item :: acc) rest hmore (by omega)]
    simp

theorem Completes.nextMembers (ih : Completes fuel) {cs : List Char}
    {members : Option (List (String × Value))} (acc : Option (List (String × Value)))
    (rest : List Char) (hspells : SpellsMembers cs members) (hfuel : cs.length + 1 < fuel + 1) :
    readMembers (fuel + 1) acc (skipBlanks (cs ++ '\x7d' :: rest)) =
      some (ofMembers (acc.bind fun acc => members.map fun members => members.reverse ++ acc),
        rest) := by
  cases hspells with
  | @last _ name value h =>
    obtain ⟨tail, behind, after, hafter, hskip, hname, hread⟩ :=
      ih.member h (by omega) (c := '\x7d') (.inr (.inr rfl)) rest
    rw [hskip, readMembers, hname]
    simp only [hread, IsMark.skipBlanks (c := '\x7d') (.inr (.inr rfl)) hafter]
    cases name <;> cases acc <;> simp [consMember]
  | @more inner more name value members h hmore =>
    simp only [List.length_append, List.length_cons] at hfuel
    rw [List.append_assoc, List.cons_append]
    obtain ⟨tail, behind, after, hafter, hskip, hname, hread⟩ :=
      ih.member h (by omega) (c := ',') (.inl rfl) (more ++ '\x7d' :: rest)
    rw [hskip, readMembers, hname]
    simp only [hread, IsMark.skipBlanks (c := ',') (.inl rfl) hafter]
    rw [ih.members _ rest hmore (by omega)]
    cases name <;> cases acc <;> cases members <;> simp [consMember]

end

theorem completes : ∀ fuel, Completes fuel
  | 0 => ⟨by omega, by omega, by omega⟩
  | fuel + 1 =>
    have ih := completes fuel
    ⟨ih.nextValue, ih.nextItems, ih.nextMembers⟩

/-! ## Nothing else is read -/

theorem SpellsPadded.behind {gap cs : List Char} {value : Value} (hgap : Blank gap)
    (h : SpellsPadded cs value) : SpellsPadded (gap ++ cs) value := by
  obtain ⟨hbefore, hinner, hafter⟩ := h
  rw [← List.append_assoc]
  exact .blanks (hgap.append hbefore) hinner hafter

theorem SpellsItems.behind {gap cs : List Char} {items : List Value} (hgap : Blank gap)
    (h : SpellsItems cs items) : SpellsItems (gap ++ cs) items := by
  cases h with
  | last h => exact .last (h.behind hgap)
  | more h hmore =>
    rw [← List.append_assoc]
    exact .more (h.behind hgap) hmore

theorem SpellsMember.behind {gap cs : List Char} {name : Option String} {value : Value}
    (hgap : Blank gap) (h : SpellsMember cs name value) : SpellsMember (gap ++ cs) name value := by
  obtain ⟨hbefore, hkey, hbetween, hinner⟩ := h
  rw [← List.append_assoc]
  exact .colon (hgap.append hbefore) hkey hbetween hinner

theorem SpellsMembers.behind {gap cs : List Char} {members : Option (List (String × Value))}
    (hgap : Blank gap) (h : SpellsMembers cs members) : SpellsMembers (gap ++ cs) members := by
  cases h with
  | last h => exact .last (h.behind hgap)
  | more h hmore =>
    rw [← List.append_assoc]
    exact .more (h.behind hgap) hmore

theorem dropWord_sound : ∀ {word cs rest : List Char}, dropWord word cs = some rest →
    cs = word ++ rest
  | [], _, _, h => by cases h; rfl
  | w :: word, [], _, h => by cases h
  | w :: word, c :: cs, rest, h => by
    unfold dropWord at h
    split at h
    · next hc => rw [hc, dropWord_sound h]; rfl
    · cases h

/-- What is read with this much fuel is spelled so. -/
structure Sound (fuel : Nat) : Prop where
  value : ∀ {cs rest : List Char} {value : Value}, readValue fuel cs = some (value, rest) →
    ∃ inner, SpellsValue inner value ∧ cs = inner ++ rest
  items : ∀ {acc : List Value} {cs rest : List Char} {value : Value},
    readItems fuel acc cs = some (value, rest) → ∃ inner items, SpellsItems inner items ∧
      cs = inner ++ ']' :: rest ∧ value = .array (acc.reverse ++ items)
  members : ∀ {acc : Option (List (String × Value))} {cs rest : List Char} {value : Value},
    readMembers fuel acc cs = some (value, rest) → ∃ inner members, SpellsMembers inner members ∧
      cs = inner ++ '\x7d' :: rest ∧
      value = ofMembers (acc.bind fun acc => members.map fun members => members.reverse ++ acc)

/-- A value that is read up to a mark stands there with the blanks behind it. -/
theorem Sound.padded {fuel : Nat} (h : Sound fuel) {cs behind tail : List Char} {value : Value}
    {c : Char} (hread : readValue fuel cs = some (value, behind))
    (hskip : skipBlanks behind = c :: tail) :
    ∃ inner, SpellsPadded inner value ∧ cs = inner ++ c :: tail := by
  obtain ⟨inner, hinner, rfl⟩ := h.value hread
  obtain ⟨after, hafter, hsplit⟩ := skipBlanks_split behind
  refine ⟨[] ++ (inner ++ after), .blanks blank_nil hinner hafter, ?_⟩
  rw [hsplit, hskip]
  simp

theorem readName_sound {cs behind : List Char} {name : Option String}
    (h : readName cs = some (name, behind)) : ∃ key between, Quotable key ∧ Blank between ∧
      name = textOf key ∧ ∃ gap, Blank gap ∧
      cs = key ++ '"' :: (between ++ ':' :: (gap ++ behind)) := by
  unfold readName at h
  obtain ⟨⟨text, after⟩, htext, h⟩ := Option.bind_eq_some_iff.mp h
  obtain ⟨key, hkey, rfl, rfl⟩ := readText_sound htext
  simp only at h
  split at h
  · next rest hcolon =>
    cases h
    obtain ⟨between, hbetween, hsplit⟩ := skipBlanks_split after
    obtain ⟨gap, hgap, hrest⟩ := skipBlanks_split rest
    rw [hcolon] at hsplit
    exact ⟨key, between, hkey, hbetween, rfl, gap, hgap, by rw [hsplit, ← hrest]⟩
  · cases h

section
variable {fuel : Nat}

/-- A member that is read up to a mark stands there. -/
theorem Sound.member (h : Sound fuel) {cs behind after tail : List Char} {name : Option String}
    {value : Value} {c : Char} (hname : readName cs = some (name, behind))
    (hread : readValue fuel behind = some (value, after)) (hskip : skipBlanks after = c :: tail) :
    ∃ inner, SpellsMember inner name value ∧ '"' :: cs = inner ++ c :: tail := by
  obtain ⟨key, between, hkey, hbetween, rfl, gap, hgap, rfl⟩ := readName_sound hname
  obtain ⟨inner, hinner, rfl⟩ := h.padded hread hskip
  exact ⟨_, @SpellsMember.colon [] _ _ _ _ blank_nil hkey hbetween (hinner.behind hgap), by simp⟩

theorem Sound.array (ih : Sound fuel) {cs rest : List Char} {value : Value}
    (h : readValue (fuel + 1) ('[' :: cs) = some (value, rest)) :
    ∃ inner, SpellsValue inner value ∧ '[' :: cs = inner ++ rest := by
  obtain ⟨gap, hgap, hsplit⟩ := skipBlanks_split cs
  rw [readValue] at h
  split at h
  · next after hskip =>
    cases h
    rw [hskip] at hsplit
    exact ⟨_, .emptyArray hgap, by rw [hsplit]; simp⟩
  · obtain ⟨inner, items, hitems, hcs, rfl⟩ := ih.items h
    rw [hcs] at hsplit
    exact ⟨_, .array (hitems.behind hgap), by rw [hsplit]; simp⟩

theorem Sound.object (ih : Sound fuel) {cs rest : List Char} {value : Value}
    (h : readValue (fuel + 1) ('\x7b' :: cs) = some (value, rest)) :
    ∃ inner, SpellsValue inner value ∧ '\x7b' :: cs = inner ++ rest := by
  obtain ⟨gap, hgap, hsplit⟩ := skipBlanks_split cs
  rw [readValue] at h
  split at h
  · next after hskip =>
    cases h
    rw [hskip] at hsplit
    exact ⟨_, .emptyObject hgap, by rw [hsplit]; simp⟩
  · obtain ⟨inner, members, hmembers, hcs, rfl⟩ := ih.members h
    rw [hcs] at hsplit
    refine ⟨'\x7b' :: (gap ++ inner ++ ['\x7d']), ?_, by rw [hsplit]; simp⟩
    have hobject := SpellsValue.object (hmembers.behind hgap)
    cases members <;> simpa [ofMembers, objectOf] using hobject

theorem Sound.nextValue (ih : Sound fuel) {cs rest : List Char} {value : Value}
    (h : readValue (fuel + 1) cs = some (value, rest)) :
    ∃ inner, SpellsValue inner value ∧ cs = inner ++ rest := by
  have hread := h
  unfold readValue at h
  split at h
  · obtain ⟨⟨text, after⟩, htext, heq⟩ := Option.map_eq_some_iff.mp h
    cases heq
    obtain ⟨key, hkey, rfl, rfl⟩ := readText_sound htext
    exact ⟨_, .quoted hkey, by simp⟩
  · exact ih.array hread
  · exact ih.object hread
  · obtain ⟨after, hword, heq⟩ := Option.map_eq_some_iff.mp h
    cases heq
    exact ⟨_, .nullWord, by rw [dropWord_sound hword]; rfl⟩
  · obtain ⟨after, hword, heq⟩ := Option.map_eq_some_iff.mp h
    cases heq
    exact ⟨_, .trueWord, by rw [dropWord_sound hword]; rfl⟩
  · obtain ⟨after, hword, heq⟩ := Option.map_eq_some_iff.mp h
    cases heq
    exact ⟨_, .falseWord, by rw [dropWord_sound hword]; rfl⟩
  · obtain ⟨number, hnumber, rfl, rfl⟩ := readNumber_sound h
    exact ⟨number, .number hnumber, rfl⟩

theorem Sound.nextItems (ih : Sound fuel) {acc : List Value} {cs rest : List Char} {value : Value}
    (h : readItems (fuel + 1) acc cs = some (value, rest)) :
    ∃ inner items, SpellsItems inner items ∧ cs = inner ++ ']' :: rest ∧
      value = .array (acc.reverse ++ items) := by
  unfold readItems at h
  split at h
  · cases h
  · next item behind hread =>
    split at h
    · next more hskip =>
      obtain ⟨inner, hinner, rfl⟩ := ih.padded hread hskip
      obtain ⟨others, items, hitems, hcs, rfl⟩ := ih.items h
      obtain ⟨gap, hgap, hsplit⟩ := skipBlanks_split more
      rw [hcs] at hsplit
      refine ⟨_, item :: items, .more hinner (hitems.behind hgap), ?_, by simp⟩
      rw [hsplit]
      simp
    · next more hskip =>
      cases h
      obtain ⟨inner, hinner, rfl⟩ := ih.padded hread hskip
      exact ⟨inner, [item], .last hinner, rfl, by simp⟩
    · cases h

theorem Sound.nextMembers (ih : Sound fuel) {acc : Option (List (String × Value))}
    {cs rest : List Char} {value : Value}
    (h : readMembers (fuel + 1) acc cs = some (value, rest)) :
    ∃ inner members, SpellsMembers inner members ∧ cs = inner ++ '\x7d' :: rest ∧ value =
      ofMembers (acc.bind fun acc => members.map fun members => members.reverse ++ acc) := by
  unfold readMembers at h
  split at h
  · split at h
    · cases h
    · next name behind hname =>
      split at h
      · cases h
      · next item after hread =>
        simp only at h
        split at h
        · next more hskip =>
          obtain ⟨inner, hinner, hcs⟩ := ih.member hname hread hskip
          obtain ⟨others, members, hmembers, hmore, rfl⟩ := ih.members h
          obtain ⟨gap, hgap, hsplit⟩ := skipBlanks_split more
          rw [hmore] at hsplit
          refine ⟨_, _, .more hinner (hmembers.behind hgap), ?_, ?_⟩
          · rw [hcs, hsplit]
            simp
          · cases name <;> cases acc <;> cases members <;> simp [consMember]
        · next more hskip =>
          cases h
          obtain ⟨inner, hinner, hcs⟩ := ih.member hname hread hskip
          refine ⟨inner, _, .last hinner, hcs, ?_⟩
          cases name <;> cases acc <;> simp [consMember]
        · cases h
  · cases h

end

theorem sound (fuel : Nat) : Sound fuel := by
  induction fuel with
  | zero => refine ⟨fun h => ?_, fun h => ?_, fun h => ?_⟩ <;> cases h
  | succ fuel ih => exact ⟨ih.nextValue, ih.nextItems, ih.nextMembers⟩

/-! ## Whole texts -/

/-- A text is read as the value that it spells, and as no other. -/
theorem read?_iff {text : String} {value : Value} :
    read? text = some value ↔ Spells text value := by
  unfold read? Spells
  obtain ⟨gap, hgap, hsplit⟩ := skipBlanks_split text.toList
  constructor
  · intro h
    simp only at h
    split at h
    · next found rest hread =>
      split at h
      · next hrest =>
        cases h
        obtain ⟨inner, hinner, hcs⟩ := (sound _).value hread
        obtain ⟨after, hafter, hend⟩ := skipBlanks_split rest
        rw [List.isEmpty_iff.mp hrest, List.append_nil] at hend
        rw [hsplit, hcs]
        exact .blanks hgap hinner (hend ▸ hafter)
      · cases h
    · cases h
  · intro h
    generalize text.toList = cs at h
    obtain @⟨before, inner, after, _, hbefore, hinner, hafter⟩ := h
    have hends : Ends after := by
      rw [← List.append_nil after]
      exact ends_append hafter nofun
    have hskip : skipBlanks (before ++ (inner ++ after)) = inner ++ after := by
      obtain ⟨first, tail, rfl, hfirst, -⟩ := hinner.head
      rw [skipBlanks_append hbefore]
      exact skipBlanks_cons hfirst _
    have hrest : skipBlanks (after ++ []) = [] := skipBlanks_append hafter []
    rw [List.append_nil] at hrest
    have hread := (completes ((inner ++ after).length + 1)).value after hinner hends
      (by rw [List.length_append]; omega)
    simp only [hskip, hread, hrest]
    rfl

end CallSift.Json
