import CallSift.Bytes
import CallSift.Text

/-!
# Characters and their bytes

A cut at a byte offset splits the characters of a text in two (`takeBytes?_eq_some`,
`dropBytes?_eq_some`), and wherever a text is split in two there is such a cut
(`takeBytes?_append`, `dropBytes?_append`, `before_append`).

* `charsOf_eq_map_some`: what is read of bytes is characters alone where they are the bytes of
  those characters.
* `Bytes.text_ofText`: so a text is shown as it is, and
* `Bytes.text?_eq_some`: nothing else is a text.
-/
namespace CallSift

namespace Text

theorem byteLength_append (xs ys : List Char) :
    byteLength (xs ++ ys) = byteLength xs + byteLength ys := by
  induction xs with
  | nil => simp [byteLength]
  | cons c xs ih => simp only [List.cons_append, byteLength, ih]; omega

theorem length_encode (cs : List Char) :
    (cs.flatMap String.utf8EncodeChar).length = byteLength cs := by
  induction cs with
  | nil => rfl
  | cons c cs ih =>
    rw [List.flatMap_cons, List.length_append, ih, String.length_utf8EncodeChar, byteLength]

theorem byteLength_toList (text : String) : byteLength text.toList = text.utf8ByteSize := by
  rw [← length_encode, String.utf8ByteSize, ← String.utf8Encode_toList, List.utf8Encode]
  simp

/-- A character takes at least one byte. -/
theorem length_le_byteLength (cs : List Char) : cs.length ≤ byteLength cs := by
  induction cs with
  | nil => simp [byteLength]
  | cons c cs ih =>
    have := c.utf8Size_pos
    simp only [List.length_cons, byteLength]; omega

/-- Bytes and characters are as many exactly where each character has one byte. -/
theorem byteLength_eq_length_iff {cs : List Char} :
    byteLength cs = cs.length ↔ ∀ c ∈ cs, c.utf8Size = 1 := by
  induction cs with
  | nil => simp [byteLength]
  | cons c cs ih =>
    have := c.utf8Size_pos
    have := length_le_byteLength cs
    simp only [byteLength, List.length_cons, List.forall_mem_cons, ← ih]; omega

/-- Lower case takes as many bytes, since only ASCII letters have one. -/
theorem utf8Size_toLower (c : Char) : c.toLower.utf8Size = c.utf8Size := by
  unfold Char.toLower
  split
  · rename_i h
    -- a letter from `A` to `Z` and the one that stands 32 places behind it
    have hlow : c.val.toNat ≤ 90 := UInt32.le_iff_toNat_le.mp h.2
    have hsum : (c.val + ('a'.val - 'A'.val)).toNat ≤ 127 := by
      have : ('a'.val - 'A'.val).toNat = 32 := rfl
      rw [UInt32.toNat_add]; omega
    rw [Char.utf8Size_eq_one_iff.mpr (UInt32.le_iff_toNat_le.mpr hsum),
      Char.utf8Size_eq_one_iff.mpr (UInt32.le_iff_toNat_le.mpr (Nat.le_trans hlow (by decide)))]
  · rfl

theorem byteLength_map_toLower (cs : List Char) :
    byteLength (cs.map Char.toLower) = byteLength cs := by
  induction cs with
  | nil => rfl
  | cons c cs ih => rw [List.map_cons, byteLength, byteLength, ih, utf8Size_toLower]

/-! ## Cuts at byte offsets -/

theorem dropBytes?_eq_some {rest : List Char} : ∀ {cs : List Char} {n : Nat},
    dropBytes? cs n = some rest → ∃ pre, cs = pre ++ rest ∧ byteLength pre = n
  | cs, 0, h => by
    simp only [dropBytes?, Option.some.injEq] at h
    exact ⟨[], h, rfl⟩
  | c :: cs, n + 1, h => by
    unfold dropBytes? at h
    split at h
    · obtain ⟨pre, rfl, hn⟩ := dropBytes?_eq_some h
      refine ⟨c :: pre, rfl, ?_⟩
      rw [byteLength, hn]; omega
    · cases h

theorem takeBytes?_eq_some : ∀ {cs : List Char} {n : Nat} {taken : List Char},
    takeBytes? cs n = some taken → ∃ post, cs = taken ++ post ∧ byteLength taken = n
  | cs, 0, taken, h => by
    simp only [takeBytes?, Option.some.injEq] at h
    subst h
    exact ⟨cs, rfl, rfl⟩
  | c :: cs, n + 1, taken, h => by
    unfold takeBytes? at h
    split at h
    · obtain ⟨later, hl, rfl⟩ := Option.map_eq_some_iff.mp h
      obtain ⟨post, rfl, hn⟩ := takeBytes?_eq_some hl
      refine ⟨post, rfl, ?_⟩
      rw [byteLength, hn]; omega
    · cases h

/-- The bytes of a character and of those behind it, as a number to count down from. -/
theorem byteLength_cons (c : Char) (cs : List Char) : ∃ n, byteLength (c :: cs) = n + 1 ∧
    c.utf8Size ≤ n + 1 ∧ n + 1 - c.utf8Size = byteLength cs := by
  have := c.utf8Size_pos
  refine ⟨c.utf8Size + byteLength cs - 1, ?_, ?_, ?_⟩
  · rw [byteLength]; omega
  · omega
  · omega

theorem before_append (pre post : List Char) : before (pre ++ post) (byteLength pre) = pre := by
  induction pre with
  | nil => simp [byteLength, before]
  | cons c pre ih =>
    obtain ⟨n, hn, -, hrest⟩ := byteLength_cons c pre
    rw [hn, List.cons_append, before, hrest, ih]

theorem dropBytes?_append (pre post : List Char) :
    dropBytes? (pre ++ post) (byteLength pre) = some post := by
  induction pre with
  | nil => simp [byteLength, dropBytes?]
  | cons c pre ih =>
    obtain ⟨n, hn, hle, hrest⟩ := byteLength_cons c pre
    rw [hn, List.cons_append, dropBytes?, if_pos hle, hrest, ih]

theorem takeBytes?_append (pre post : List Char) :
    takeBytes? (pre ++ post) (byteLength pre) = some pre := by
  induction pre with
  | nil => simp [byteLength, takeBytes?]
  | cons c pre ih =>
    obtain ⟨n, hn, hle, hrest⟩ := byteLength_cons c pre
    rw [hn, List.cons_append, takeBytes?, if_pos hle, hrest, ih, Option.map_some]

/-- Of two beginnings of a text the one with fewer bytes begins the other. -/
theorem prefix_of_byteLength_le {pre long cs : List Char} (hpre : pre <+: cs) (hlong : long <+: cs)
    (h : byteLength pre ≤ byteLength long) : pre <+: long := by
  rcases List.prefix_or_prefix_of_prefix hpre hlong with hp | ⟨rest, rfl⟩
  · exact hp
  · rw [byteLength_append] at h
    have hrest : rest = [] := by
      have := length_le_byteLength rest
      exact List.length_eq_zero_iff.mp (by omega)
    exact ⟨[], by simp [hrest]⟩

/-! ## Bytes read back -/

/-- Where the bytes of a character begin, the character is read. -/
theorem firstOf?_encode (c : Char) (rest : List UInt8) :
    firstOf? (String.utf8EncodeChar c ++ rest) = some c := by
  have hlength : (String.utf8EncodeChar c).length ≤ 4 := by
    rw [String.length_utf8EncodeChar]; exact c.utf8Size_le_four
  rw [firstOf?, List.take_append, List.take_of_length_le hlength, List.toByteArray_append,
    ByteArray.utf8DecodeChar?_utf8EncodeChar_append]

/-- And no other character is: its bytes are those in front. -/
theorem firstOf?_eq_some {bytes : List UInt8} {c : Char} :
    firstOf? bytes = some c ↔ ∃ rest, bytes = String.utf8EncodeChar c ++ rest := by
  constructor
  · intro h
    obtain ⟨rest, hrest⟩ := ByteArray.exists_of_utf8DecodeChar?_eq_some h
    have hfour : bytes.take 4 = String.utf8EncodeChar c ++ rest.data.toList := by
      simpa using congrArg (fun bytes => bytes.data.toList) hrest
    exact ⟨rest.data.toList ++ bytes.drop 4, by
      rw [← List.append_assoc, ← hfour, List.take_append_drop]⟩
  · rintro ⟨rest, rfl⟩
    exact firstOf?_encode c rest

theorem brokenLength_pos (bytes : List UInt8) : 0 < brokenLength bytes := by
  unfold brokenLength
  repeat' split
  all_goals decide

theorem length_drop_le {byte : UInt8} {rest : List UInt8} {n fuel : Nat} (hn : 0 < n)
    (h : (byte :: rest).length ≤ fuel + 1) : ((byte :: rest).drop n).length ≤ fuel := by
  rw [List.length_drop]; omega

/-- Any fuel that is enough finds the same characters. -/
theorem readChars_congr : ∀ {fuel fuel' : Nat} {bytes : List UInt8}, bytes.length ≤ fuel →
    bytes.length ≤ fuel' → readChars fuel bytes = readChars fuel' bytes
  | 0, 0, [], _, _ | 0, _ + 1, [], _, _ | _ + 1, 0, [], _, _ | _ + 1, _ + 1, [], _, _ => rfl
  | fuel + 1, fuel' + 1, byte :: rest, h, h' => by
    unfold readChars
    cases firstOf? (byte :: rest) with
    | some c =>
      have hc := c.utf8Size_pos
      exact congrArg (some c :: ·) (readChars_congr (length_drop_le hc h) (length_drop_le hc h'))
    | none =>
      have hb := brokenLength_pos (byte :: rest)
      exact congrArg (none :: ·) (readChars_congr (length_drop_le hb h) (length_drop_le hb h'))

theorem charsOf_encode_append (c : Char) (rest : List UInt8) :
    charsOf (String.utf8EncodeChar c ++ rest) = some c :: charsOf rest := by
  have hc := c.utf8Size_pos
  obtain ⟨byte, behind, hbytes⟩ := List.exists_cons_of_ne_nil
    (List.append_ne_nil_of_left_ne_nil (String.utf8EncodeChar_ne_nil (c := c)) rest)
  have hdrop : (byte :: behind).drop c.utf8Size = rest := by
    rw [← hbytes, ← String.length_utf8EncodeChar c, List.drop_left]
  have hfirst : firstOf? (byte :: behind) = some c := hbytes ▸ firstOf?_encode c rest
  rw [hbytes, charsOf, List.length_cons, readChars, hfirst]
  simp only [List.cons.injEq, true_and]
  rw [readChars_congr (length_drop_le hc (Nat.le_refl _)) (Nat.le_refl _), hdrop, charsOf]

theorem charsOf_broken {bytes : List UInt8} (hsome : bytes ≠ []) (h : firstOf? bytes = none) :
    charsOf bytes = none :: charsOf (bytes.drop (brokenLength bytes)) := by
  obtain ⟨byte, rest, rfl⟩ := List.exists_cons_of_ne_nil hsome
  rw [charsOf, List.length_cons, readChars, h]
  simp only [List.cons.injEq, true_and]
  exact readChars_congr (length_drop_le (brokenLength_pos _) (Nat.le_refl _)) (Nat.le_refl _)

/-- The characters in bytes are found one by one: each is encoded in front of the others, or what is
in front is none. -/
theorem charsOf_induction {motive : List UInt8 → Prop} (nil : motive [])
    (char : ∀ c rest, motive rest → motive (String.utf8EncodeChar c ++ rest))
    (broken : ∀ bytes, bytes ≠ [] → firstOf? bytes = none →
      motive (bytes.drop (brokenLength bytes)) → motive bytes) (bytes : List UInt8) :
    motive bytes := by
  induction hlength : bytes.length using Nat.strongRecOn generalizing bytes with
  | ind length ih =>
    subst hlength
    by_cases hsome : bytes = []
    · exact hsome ▸ nil
    have hpos := List.length_pos_iff.mpr hsome
    cases hfirst : firstOf? bytes with
    | some c =>
      obtain ⟨rest, rfl⟩ := firstOf?_eq_some.mp hfirst
      have hc := c.utf8Size_pos
      refine char c rest (ih _ ?_ rest rfl)
      rw [List.length_append, String.length_utf8EncodeChar]; omega
    | none =>
      have hb := brokenLength_pos bytes
      refine broken bytes hsome hfirst (ih _ ?_ _ rfl)
      rw [List.length_drop]; omega

/-! ## Texts -/

theorem charsOf_encode (cs : List Char) :
    charsOf (cs.flatMap String.utf8EncodeChar) = cs.map some := by
  induction cs with
  | nil => rfl
  | cons c cs ih => rw [List.flatMap_cons, charsOf_encode_append, ih, List.map_cons]

/-- Characters are read back from their bytes. -/
theorem ofBytes_encode (cs : List Char) :
    ofBytes (cs.flatMap String.utf8EncodeChar) = String.ofList cs := by
  rw [ofBytes, charsOf_encode, List.map_map]
  exact congrArg String.ofList (List.map_id cs)

/-- Bytes are a text when they are those of its characters. -/
theorem charsOf_eq_map_some {bytes : List UInt8} {cs : List Char} :
    charsOf bytes = cs.map some ↔ bytes = cs.flatMap String.utf8EncodeChar := by
  refine ⟨fun h => ?_, fun h => h ▸ charsOf_encode cs⟩
  induction bytes using charsOf_induction generalizing cs with
  | nil =>
    cases cs with
    | nil => rfl
    | cons c cs => cases h
  | char c rest ih =>
    rw [charsOf_encode_append] at h
    cases cs with
    | nil => cases h
    | cons d cs =>
      obtain ⟨hfirst, hrest⟩ := List.cons.inj h
      cases hfirst
      rw [ih hrest, List.flatMap_cons]
  | broken bytes hsome hfirst =>
    rw [charsOf_broken hsome hfirst] at h
    cases cs with
    | nil => cases h
    | cons d cs => cases (List.cons.inj h).1

theorem toUTF8_eq_flatMap (text : String) :
    text.toUTF8.data.toList = text.toList.flatMap String.utf8EncodeChar := by
  rw [String.toUTF8_eq_toByteArray, ← String.utf8Encode_toList, List.utf8Encode]
  simp

theorem mapM_id_eq_some {found : List (Option Char)} {cs : List Char} :
    found.mapM id = some cs ↔ found = cs.map some := by
  induction found generalizing cs with
  | nil => cases cs <;> simp
  | cons first rest ih =>
    rw [List.mapM_cons]
    cases first with
    | none => cases cs <;> simp
    | some c =>
      cases hrest : rest.mapM id with
      | none =>
        have hno : ∀ ds : List Char, rest ≠ ds.map some := fun ds hds => by
          cases hrest.symm.trans (ih.mpr hds)
        cases cs <;> simp [hno]
      | some ds =>
        obtain rfl := ih.mp hrest
        cases cs <;> simp [List.map_inj_right]

theorem ofBytes?_eq_some {bytes : List UInt8} {text : String} :
    ofBytes? bytes = some text ↔ bytes = text.toUTF8.data.toList := by
  rw [toUTF8_eq_flatMap, ← charsOf_eq_map_some, ← mapM_id_eq_some, ofBytes?, Option.map_eq_some_iff]
  constructor
  · rintro ⟨cs, hcs, rfl⟩
    rwa [String.toList_ofList]
  · exact fun h => ⟨text.toList, h, String.ofList_toList⟩

end Text

namespace Bytes

theorem text?_eq_some {bytes : Bytes} {text : String} : bytes.text? = some text ↔ bytes = text := by
  rw [text?, Text.ofBytes?_eq_some, Bytes.ext_iff, ofText]

@[simp] theorem text?_ofText (text : String) : (ofText text).text? = some text :=
  text?_eq_some.mpr rfl

/-- A text is shown as it is. -/
@[simp] theorem text_ofText (text : String) : (ofText text).text = text := by
  rw [Bytes.text, ofText, Text.toUTF8_eq_flatMap, Text.ofBytes_encode, String.ofList_toList]

theorem ofText_injective {a b : String} (h : (a : Bytes) = b) : a = b := by
  rw [← text_ofText a, h, text_ofText]

@[simp] theorem ofText_inj {a b : String} : (a : Bytes) = b ↔ a = b :=
  ⟨ofText_injective, congrArg ofText⟩

@[simp] theorem ofText_eq_empty {text : String} : (text : Bytes) = empty ↔ text = "" :=
  ofText_inj (b := "")

/-- The bytes are a text. -/
def IsText (bytes : Bytes) : Prop := bytes.text?.isSome

instance (bytes : Bytes) : Decidable bytes.IsText :=
  inferInstanceAs (Decidable (bytes.text?.isSome = true))

theorem isText_iff {bytes : Bytes} : bytes.IsText ↔ ∃ text : String, bytes = text := by
  simp only [IsText, Option.isSome_iff_exists, text?_eq_some]

/-- Only a text is shown as what it is. -/
theorem IsText.ofText_text {bytes : Bytes} (h : bytes.IsText) : (bytes.text : Bytes) = bytes := by
  obtain ⟨text, rfl⟩ := isText_iff.mp h
  rw [text_ofText]

theorem IsText.eq_of_text {a b : Bytes} (ha : a.IsText) (hb : b.IsText) (h : a.text = b.text) :
    a = b := by
  rw [← ha.ofText_text, h, hb.ofText_text]

end Bytes
end CallSift
