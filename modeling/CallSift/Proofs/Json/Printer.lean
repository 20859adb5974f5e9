import CallSift.Proofs.Json.Reader

/-!
# Both layouts are read back

The two ways of writing a document differ in blanks alone, so both are read back.

* `Value.Printable`: the documents that can be written.
* `read?_compact`, `read?_pretty`: they are read back from either layout.
-/
namespace CallSift.Json

/-- What writing loses nothing of: every name is a text, and every number an integer. -/
inductive Value.Printable : Value → Prop where
  | null : Printable .null
  | bool (b : Bool) : Printable (.bool b)
  | token {text : String} (h : IsInteger text.toList) : Printable (.token text)
  | string (text : String) : Printable (.string text)
  | array {items : List Value} (h : ∀ item ∈ items, Printable item) : Printable (.array items)
  | object {members : List (String × Value)} (h : ∀ member ∈ members, Printable member.2) :
    Printable (.object members)

/-! ## The two layouts -/

theorem compactItems_eq_map : ∀ items, compactItems items = items.map compactChars
  | [] => rfl
  | item :: rest => congrArg (compactChars item :: ·) (compactItems_eq_map rest)

theorem compactMembers_eq_map : ∀ members,
    compactMembers members = members.map (memberChars [] compactChars)
  | [] => rfl
  | (_, _) :: rest => congrArg (_ :: ·) (compactMembers_eq_map rest)

theorem prettyItems_eq_map (level : Nat) : ∀ items,
    prettyItems level items = items.map (prettyChars level)
  | [] => rfl
  | item :: rest => congrArg (prettyChars level item :: ·) (prettyItems_eq_map level rest)

theorem prettyMembers_eq_map (level : Nat) : ∀ members,
    prettyMembers level members = members.map (memberChars [' '] (prettyChars level))
  | [] => rfl
  | (_, _) :: rest => congrArg (_ :: ·) (prettyMembers_eq_map level rest)

theorem block_cons (opening closing : Char) (level : Nat) (line : List Char)
    (lines : List (List Char)) : block opening closing level (line :: lines) =
      opening :: (newline (level + 1) ++ (separated (',' :: newline (level + 1)) (line :: lines) ++
        (newline level ++ [closing]))) := by
  simp [block]

theorem blank_newline (level : Nat) : Blank (newline level) := by
  intro c hc
  rcases List.mem_cons.mp hc with rfl | hc
  · rfl
  · rw [List.eq_of_mem_replicate hc]
    rfl

theorem blank_space : Blank [' '] := by
  simp [Blank, isBlank]

namespace Value.Printable

variable {value : Value}

theorem reads_compact (h : value.Printable) : Reads (compactChars value) value := by
  induction h with
  | null => exact reads_null
  | bool b =>
    cases b with
    | true => exact reads_true
    | false => exact reads_false
  | token h => exact reads_token h
  | string text => exact reads_string text
  | @array items _ ih =>
    cases items with
    | nil => exact reads_emptyArray
    | cons item items =>
      have hchars := reads_array blank_nil blank_nil compactChars ih
      rwa [← compactItems_eq_map] at hchars
  | @object members _ ih =>
    cases members with
    | nil => exact reads_emptyObject
    | cons member members =>
      have hchars := reads_object blank_nil blank_nil blank_nil compactChars ih
      rwa [← compactMembers_eq_map] at hchars

theorem reads_pretty (h : value.Printable) : ∀ level, Reads (prettyChars level value) value := by
  induction h with
  | null => exact fun _ => reads_null
  | bool b =>
    cases b with
    | true => exact fun _ => reads_true
    | false => exact fun _ => reads_false
  | token h => exact fun _ => reads_token h
  | string text => exact fun _ => reads_string text
  | @array items _ ih =>
    intro level
    cases items with
    | nil => exact reads_emptyArray
    | cons item items =>
      rw [prettyChars, prettyItems_eq_map, List.map_cons, block_cons]
      exact reads_array (blank_newline (level + 1)) (blank_newline level) _
        fun v hv => ih v hv (level + 1)
  | @object members _ ih =>
    intro level
    cases members with
    | nil => exact reads_emptyObject
    | cons member members =>
      rw [prettyChars, prettyMembers_eq_map, List.map_cons, block_cons]
      exact reads_object (blank_newline (level + 1)) (blank_newline level) blank_space _
        fun m hm => ih m hm (level + 1)

end Value.Printable

/-! ## Whole documents -/

variable {value : Value}

theorem read?_compact (h : value.Printable) : read? value.compact = some value := by
  have hread := read?_of_reads h.reads_compact blank_nil
  rwa [List.append_nil] at hread

theorem read?_pretty (h : value.Printable) : read? (value.pretty ++ "\n") = some value := by
  have hfeed : Blank ['\n'] := by simp [Blank, isBlank]
  have hread := read?_of_reads (h.reads_pretty 0) hfeed
  rwa [String.ofList_append] at hread

end CallSift.Json
