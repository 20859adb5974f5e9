import CallSift.Json.Text

/-!
# Quoted text is read back

A reader between quotes that has met only whole characters takes each character as it
was written: by itself, by its letter, or by the digits of its code.

* `readTextFrom_escape`: one character is read back.
* `readText_quoted`: so is a text, and the reader stops behind its closing quote.
-/
namespace CallSift.Json

/-- Between two characters, all read so far being whole. -/
def TextState.between (read : List Char) : TextState := ⟨.plain none, read, true⟩

theorem readTextFrom_letter {letter c : Char} (h : shortEscape? letter = some c)
    (read rest : List Char) :
    readTextFrom (.between read) ('\\' :: letter :: rest) =
      readTextFrom (.between (c :: read)) rest := by
  have hne : letter ≠ 'u' := by
    rintro rfl
    cases h
  simp [readTextFrom, TextState.between, TextState.step, TextState.push, hne, h]

theorem hexValue?_hexDigit : ∀ n < 16, hexValue? (hexDigit n) = some n := by decide

/-- A control character is read back from the two digits of its code. -/
theorem readTextFrom_code {c : Char} (h : c.toNat < 32) (read rest : List Char) :
    readTextFrom (.between read) ('\\' :: 'u' :: '0' :: '0' :: hexDigit (c.toNat / 16) ::
      hexDigit (c.toNat % 16) :: rest) = readTextFrom (.between (c :: read)) rest := by
  have hzero : hexValue? '0' = some 0 := rfl
  have hhigh : hexValue? (hexDigit (c.toNat / 16)) = some (c.toNat / 16) :=
    hexValue?_hexDigit _ (by omega)
  have hlow : hexValue? (hexDigit (c.toNat % 16)) = some (c.toNat % 16) :=
    hexValue?_hexDigit _ (by omega)
  have hcode : c.toNat / 16 * 16 + c.toNat % 16 = c.toNat := by omega
  have hunit : (⟨.digits 0 (c.toNat / 16) none, read, true⟩ : TextState).pushUnit none c.toNat =
      .between (c :: read) := by
    unfold TextState.pushUnit
    rw [if_neg (by omega), if_neg (by omega), Char.ofNat_toNat]
    rfl
  simp [readTextFrom, TextState.between, TextState.step, hzero, hhigh, hlow, hcode, hunit]

theorem readTextFrom_plain {c : Char} (hquote : c ≠ '"') (hslash : c ≠ '\\')
    (hplain : ¬ c.toNat < 32) (read rest : List Char) :
    readTextFrom (.between read) (c :: rest) = readTextFrom (.between (c :: read)) rest := by
  have hstep : (TextState.between read).step c = some (.between (c :: read)) := by
    simp [TextState.between, TextState.step, TextState.push, hslash, hplain]
  rw [readTextFrom, hstep]
  exact fun _ _ h => hquote h

theorem readTextFrom_escape (c : Char) (read rest : List Char) :
    readTextFrom (.between read) (escape c ++ rest) = readTextFrom (.between (c :: read)) rest := by
  have hletter : ∀ letter d, shortEscape? letter = some d → c.toNat = d.toNat →
      readTextFrom (.between read) (['\\', letter] ++ rest) =
        readTextFrom (.between (c :: read)) rest := by
    intro letter d hshort hc
    rw [Char.toNat_inj.mp hc]
    exact readTextFrom_letter hshort read rest
  unfold escape
  split
  · next h => exact hletter _ _ rfl (h ▸ rfl)
  split
  · next h => exact hletter _ _ rfl (h ▸ rfl)
  split
  · next h => exact hletter _ _ rfl h
  split
  · next h => exact hletter _ _ rfl h
  split
  · next h => exact hletter _ _ rfl (h ▸ rfl)
  split
  · next h => exact hletter _ _ rfl (h ▸ rfl)
  split
  · next h => exact hletter _ _ rfl (h ▸ rfl)
  split
  · next h => exact readTextFrom_code h read rest
  · next hquote hslash _ _ _ _ _ hplain => exact readTextFrom_plain hquote hslash hplain read rest

theorem readTextFrom_text (rest : List Char) : ∀ (cs read : List Char),
    readTextFrom (.between read) (cs.flatMap escape ++ '"' :: rest) =
      some (some (String.ofList (read.reverse ++ cs)), rest)
  | [], read => by simp [readTextFrom, TextState.between, TextState.finish]
  | c :: cs, read => by
    rw [List.flatMap_cons, List.append_assoc, readTextFrom_escape, readTextFrom_text rest cs]
    simp

/-- What is written between quotes is read back, up to the closing quote. -/
theorem readText_quoted (text : String) (rest : List Char) :
    readText (text.toList.flatMap escape ++ '"' :: rest) = some (some text, rest) := by
  have h := readTextFrom_text rest text.toList []
  rwa [List.reverse_nil, List.nil_append, String.ofList_toList] at h

end CallSift.Json
