import CallSift.Json.Printer
import CallSift.Proofs.Json.Number
import CallSift.Proofs.Json.Text

/-!
# What is written of a value is read back

A value is read back from what it is written as wherever that stands, given that its
parts are. Blanks between the parts make no difference.

* `Reads`: what a value is written as is taken off the front of any text.
* `reads_string`, `reads_token`: texts and integers.
* `reads_array`, `reads_object`: values with parts, with any blanks around these.
* `read?_of_reads`: whole texts.
-/
namespace CallSift.Json

/-! ## Blanks -/

theorem isBlank_iff {c : Char} :
    isBlank c = true ↔ c = ' ' ∨ c = '\t' ∨ c = '\n' ∨ c = '\r' := by
  simp [isBlank, or_assoc]

def Blank (cs : List Char) : Prop := ∀ c ∈ cs, isBlank c = true

theorem blank_nil : Blank [] := by
  simp [Blank]

theorem skipBlanks_append {gap : List Char} (h : Blank gap) (cs : List Char) :
    skipBlanks (gap ++ cs) = skipBlanks cs :=
  List.dropWhile_append_of_pos h

theorem skipBlanks_cons {c : Char} (h : isBlank c = false) (cs : List Char) :
    skipBlanks (c :: cs) = c :: cs := by
  simp [skipBlanks, h]

theorem ends_cons {c : Char} (h : isBlank c = true ∨ c = ',' ∨ c = ']' ∨ c = '\x7d')
    (rest : List Char) : Ends (c :: rest) := by
  rintro d ⟨⟩
  rw [isBlank_iff] at h
  rcases h with (rfl | rfl | rfl | rfl) | rfl | rfl | rfl <;> decide

theorem ends_append {gap rest : List Char} (h : Blank gap) (hrest : Ends rest) :
    Ends (gap ++ rest) := by
  cases gap with
  | nil => exact hrest
  | cons c gap => exact ends_cons (.inl (h c List.mem_cons_self)) (gap ++ rest)

/-! ## Words, numbers and texts -/

/-- Written so, a value is read back, whatever follows that is no part of a number. Its first
character tells it from the end of an array. -/
structure Reads (cs : List Char) (value : Value) : Prop where
  starts : ∃ c tail, cs = c :: tail ∧ isBlank c = false ∧ c ≠ ']'
  reads : ∀ fuel rest, Ends rest → cs.length < fuel →
    readValue fuel (cs ++ rest) = some (value, rest)

theorem Reads.skipBlanks_append {cs : List Char} {value : Value} (h : Reads cs value)
    (rest : List Char) : skipBlanks (cs ++ rest) = cs ++ rest := by
  obtain ⟨c, tail, rfl, hc, -⟩ := h.starts
  exact skipBlanks_cons hc (tail ++ rest)

/-- There is always fuel for the first character. -/
theorem Reads.of_succ {c : Char} {tail : List Char} {value : Value} (hc : isBlank c = false)
    (hend : c ≠ ']') (h : ∀ fuel rest, Ends rest → tail.length < fuel →
      readValue (fuel + 1) (c :: (tail ++ rest)) = some (value, rest)) :
    Reads (c :: tail) value := by
  refine ⟨⟨c, tail, rfl, hc, hend⟩, ?_⟩
  intro fuel rest hrest hfuel
  cases fuel with
  | zero => cases hfuel
  | succ fuel => exact h fuel rest hrest (Nat.lt_of_succ_lt_succ hfuel)

theorem reads_null : Reads ['n', 'u', 'l', 'l'] .null :=
  .of_succ (by decide) (by decide) fun _ _ _ _ => rfl

theorem reads_true : Reads ['t', 'r', 'u', 'e'] (.bool true) :=
  .of_succ (by decide) (by decide) fun _ _ _ _ => rfl

theorem reads_false : Reads ['f', 'a', 'l', 's', 'e'] (.bool false) :=
  .of_succ (by decide) (by decide) fun _ _ _ _ => rfl

theorem reads_string (text : String) : Reads (quote text) (.string text) := by
  have hquote : quote text = '"' :: (text.toList.flatMap escape ++ ['"']) := rfl
  rw [hquote]
  refine .of_succ (by decide) (by decide) ?_
  intro fuel rest _ _
  rw [List.append_assoc, List.singleton_append, readValue, readText_quoted]
  rfl

theorem readValue_number {c : Char} (hc : isDigit c = true ∨ c = '-') (fuel : Nat)
    (tail : List Char) : readValue (fuel + 1) (c :: tail) = readNumber (c :: tail) := by
  rw [readValue]
  all_goals
    rintro rest ⟨⟩
    revert hc
    decide

theorem reads_token {text : String} (h : IsInteger text.toList) :
    Reads text.toList (.token text) := by
  have hhead : ∃ c tail, text.toList = c :: tail ∧ (isDigit c = true ∨ c = '-') := by
    rcases h with h | ⟨digits, hdigits, -⟩
    · obtain ⟨c, tail, hc, hdigit⟩ := h.head
      exact ⟨c, tail, hc, .inl hdigit⟩
    · exact ⟨'-', digits, hdigits, .inr rfl⟩
  obtain ⟨c, tail, htext, hc⟩ := hhead
  have hread : ∀ rest, Ends rest → readNumber (text.toList ++ rest) = some (.token text, rest) := by
    intro rest hrest
    rw [readNumber_append h.isNumber hrest, String.ofList_toList]
  rw [htext] at hread ⊢
  refine .of_succ ?_ ?_ fun fuel rest hrest _ => ?_
  · rw [Bool.eq_false_iff, Ne, isBlank_iff]
    rintro (rfl | rfl | rfl | rfl) <;> revert hc <;> decide
  · rintro rfl
    revert hc
    decide
  · rw [readValue_number hc]
    exact hread rest hrest

/-! ## Arrays and objects -/

/-- Joined pieces begin as the first of them does. -/
theorem separated_cons (separator : List Char) (c : Char) (tail : List Char)
    (pieces : List (List Char)) :
    ∃ more, separated separator ((c :: tail) :: pieces) = c :: more := by
  cases pieces with
  | nil => exact ⟨tail, rfl⟩
  | cons next pieces => exact ⟨tail ++ separator ++ separated separator (next :: pieces), rfl⟩

theorem Reads.separated {piece : List Char} {value : Value} (h : Reads piece value)
    (separator : List Char) (pieces : List (List Char)) :
    ∃ c more, separated separator (piece :: pieces) = c :: more ∧ isBlank c = false ∧ c ≠ ']' := by
  obtain ⟨c, tail, rfl, hblank, hend⟩ := h.starts
  obtain ⟨more, hmore⟩ := separated_cons separator c tail pieces
  exact ⟨c, more, hmore, hblank, hend⟩

theorem reads_emptyArray : Reads ['[', ']'] (.array []) :=
  .of_succ (by decide) (by decide) fun _ _ _ _ => rfl

theorem reads_emptyObject : Reads ['\x7b', '\x7d'] (.object []) :=
  .of_succ (by decide) (by decide) fun _ _ _ _ => rfl

/-- A member as it is written, with blanks between the colon and its value. -/
def memberChars (colon : List Char) (print : Value → List Char) (member : String × Value) :
    List Char :=
  quote member.1 ++ ':' :: (colon ++ print member.2)

/-- A member is read, and what follows it decides whether there is another. -/
theorem readMembers_member {colon : List Char} (hcolon : Blank colon) {print : Value → List Char}
    {member : String × Value} (h : Reads (print member.2) member.2)
    (acc : List (String × Value)) {rest : List Char} (hrest : Ends rest) {fuel : Nat}
    (hfuel : (memberChars colon print member).length < fuel) :
    (∀ tail, skipBlanks rest = ',' :: tail →
      readMembers (fuel + 1) (some acc) (memberChars colon print member ++ rest) =
        readMembers fuel (some (member :: acc)) (skipBlanks tail)) ∧
    ∀ tail, skipBlanks rest = '\x7d' :: tail →
      readMembers (fuel + 1) (some acc) (memberChars colon print member ++ rest) =
        some (.object (member :: acc).reverse, tail) := by
  obtain ⟨name, value⟩ := member
  have hchars : memberChars colon print (name, value) ++ rest = '"' ::
      (name.toList.flatMap escape ++ '"' :: ':' :: (colon ++ (print value ++ rest))) := by
    simp [memberChars, quote]
  have hname : readName (name.toList.flatMap escape ++ '"' :: ':' ::
      (colon ++ (print value ++ rest))) = some (some name, print value ++ rest) := by
    rw [readName, readText_quoted]
    simp [skipBlanks_cons (c := ':') rfl, skipBlanks_append hcolon, h.skipBlanks_append]
  simp only [memberChars, List.length_append, List.length_cons] at hfuel
  have hlength : (print value).length < fuel := by omega
  have hvalue : readValue fuel (print value ++ rest) = some (value, rest) :=
    h.reads fuel rest hrest hlength
  rw [hchars, readMembers, hname]
  constructor
  all_goals
    intro tail htail
    simp only [hvalue, htail, Option.bind_some, Option.map_some, ofMembers]

section
variable {gap closing : List Char} (hgap : Blank gap) (hclosing : Blank closing)

include hgap hclosing

/-- Items are read to the closing bracket, behind those read before. One unit of fuel goes to each
item, and what is left must do for the characters of the item itself. -/
theorem readItems_separated (print : Value → List Char) (rest : List Char) :
    ∀ (item : Value) (items acc : List Value) (fuel : Nat),
      (∀ v ∈ item :: items, Reads (print v) v) →
      (separated (',' :: gap) ((item :: items).map print)).length + 1 < fuel →
      readItems fuel acc
          (separated (',' :: gap) ((item :: items).map print) ++ (closing ++ ']' :: rest)) =
        some (.array (acc.reverse ++ item :: items), rest)
  | _, _, _, 0, _, hfuel => by cases hfuel
  | item, [], acc, fuel + 1, h, hfuel => by
    have hitem := (h item List.mem_cons_self).reads fuel (closing ++ ']' :: rest)
      (ends_append hclosing (ends_cons (by decide) rest))
    simp only [List.map_cons, List.map_nil, separated] at hfuel ⊢
    rw [readItems, hitem (by omega)]
    simp only [skipBlanks_append hclosing, skipBlanks_cons (c := ']') rfl]
    simp
  | item, next :: items, acc, fuel + 1, h, hfuel => by
    have hitem := (h item List.mem_cons_self).reads fuel
    obtain ⟨c, more, hmore, hblank, -⟩ :=
      (h next (by simp)).separated (',' :: gap) (items.map print)
    have hrest := readItems_separated print rest next items (item :: acc) fuel
      fun v hv => h v (List.mem_cons_of_mem item hv)
    simp only [List.map_cons, separated, List.append_assoc, List.cons_append] at hfuel hrest ⊢
    simp only [List.length_append, List.length_cons] at hfuel
    rw [readItems, hitem _ (ends_cons (by decide) _) (by omega)]
    simp only [skipBlanks_cons (c := ',') rfl, skipBlanks_append hgap]
    rw [hmore] at hrest ⊢
    rw [List.cons_append, skipBlanks_cons hblank]
    simp only [List.cons_append] at hrest
    rw [hrest (by rw [← hmore]; omega)]
    simp

/-- An array is read back, whatever blanks stand before its items and its end. -/
theorem reads_array (print : Value → List Char) {item : Value} {items : List Value}
    (h : ∀ v ∈ item :: items, Reads (print v) v) :
    Reads ('[' :: (gap ++ (separated (',' :: gap) ((item :: items).map print) ++
      (closing ++ [']'])))) (.array (item :: items)) := by
  refine .of_succ (by decide) (by decide) ?_
  intro fuel rest _ hfuel
  have hitems := readItems_separated hgap hclosing print rest item items [] fuel h
  obtain ⟨c, more, hmore, hblank, hend⟩ :=
    (h item List.mem_cons_self).separated (',' :: gap) (items.map print)
  simp only [List.map_cons, hmore, List.length_append, List.length_cons, List.append_assoc,
    List.cons_append, List.nil_append] at hfuel hitems ⊢
  rw [readValue]
  simp only [skipBlanks_append hgap, skipBlanks_cons hblank]
  split
  · next heq =>
    cases heq
    exact absurd rfl hend
  · exact hitems (by omega)

/-- Members are read to the closing brace as items are to the closing bracket. -/
theorem readMembers_separated {colon : List Char} (hcolon : Blank colon)
    (print : Value → List Char) (rest : List Char) :
    ∀ (member : String × Value) (members acc : List (String × Value)) (fuel : Nat),
      (∀ m ∈ member :: members, Reads (print m.2) m.2) →
      (separated (',' :: gap) ((member :: members).map (memberChars colon print))).length + 1 <
        fuel →
      readMembers fuel (some acc)
          (separated (',' :: gap) ((member :: members).map (memberChars colon print)) ++
            (closing ++ '\x7d' :: rest)) =
        some (.object (acc.reverse ++ member :: members), rest)
  | _, _, _, 0, _, hfuel => by cases hfuel
  | member, [], acc, fuel + 1, h, hfuel => by
    have hends : Ends (closing ++ '\x7d' :: rest) :=
      ends_append hclosing (ends_cons (by decide) rest)
    simp only [List.map_cons, List.map_nil, separated] at hfuel ⊢
    have hlast : skipBlanks (closing ++ '\x7d' :: rest) = '\x7d' :: rest := by
      rw [skipBlanks_append hclosing, skipBlanks_cons rfl]
    rw [(readMembers_member hcolon (h _ List.mem_cons_self) acc hends (by omega)).2 rest hlast]
    simp
  | member, next :: members, acc, fuel + 1, h, hfuel => by
    obtain ⟨more, hmore⟩ : ∃ more, separated (',' :: gap)
        ((next :: members).map (memberChars colon print)) = '"' :: more :=
      separated_cons _ _ _ _
    have hrest := readMembers_separated hcolon print rest next members (member :: acc) fuel
      fun m hm => h m (List.mem_cons_of_mem member hm)
    simp only [List.map_cons, separated, List.append_assoc, List.cons_append] at hfuel hrest hmore ⊢
    simp only [List.length_append, List.length_cons] at hfuel
    rw [hmore] at hrest hfuel ⊢
    rw [(readMembers_member hcolon (h _ List.mem_cons_self) acc (ends_cons (by decide) _)
      (by omega)).1 _ (skipBlanks_cons rfl _), skipBlanks_append hgap, List.cons_append,
      skipBlanks_cons rfl]
    simp only [List.cons_append] at hrest
    rw [hrest (by omega)]
    simp

/-- An object is read back, whatever blanks stand before its members, behind their colons and
before its end. -/
theorem reads_object {colon : List Char} (hcolon : Blank colon) (print : Value → List Char)
    {member : String × Value} {members : List (String × Value)}
    (h : ∀ m ∈ member :: members, Reads (print m.2) m.2) :
    Reads ('\x7b' :: (gap ++ (separated (',' :: gap)
      ((member :: members).map (memberChars colon print)) ++ (closing ++ ['\x7d']))))
      (.object (member :: members)) := by
  refine .of_succ (by decide) (by decide) ?_
  intro fuel rest _ hfuel
  have hmembers := readMembers_separated hgap hclosing hcolon print rest member members [] fuel h
  obtain ⟨more, hmore⟩ : ∃ more, separated (',' :: gap)
      ((member :: members).map (memberChars colon print)) = '"' :: more :=
    separated_cons _ _ _ _
  simp only [hmore, List.length_append, List.length_cons, List.append_assoc,
    List.cons_append, List.nil_append] at hfuel hmembers ⊢
  rw [readValue]
  simp only [skipBlanks_append hgap, skipBlanks_cons (c := '"') rfl]
  exact hmembers (by omega)

end

/-! ## Whole documents -/

/-- A text that holds a value, with nothing but blanks behind it, is read as this value. -/
theorem read?_of_reads {cs rest : List Char} {value : Value} (h : Reads cs value)
    (hrest : Blank rest) : read? (String.ofList (cs ++ rest)) = some value := by
  have hends : Ends rest := by
    rw [← List.append_nil rest]
    exact ends_append hrest nofun
  have hskip : skipBlanks (rest ++ []) = [] := skipBlanks_append hrest []
  rw [List.append_nil] at hskip
  rw [read?, String.toList_ofList, h.skipBlanks_append,
    h.reads _ rest hends (by rw [List.length_append]; omega)]
  simp [hskip]

end CallSift.Json
