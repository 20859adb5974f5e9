import CallSift.Proofs.Text.Bytes
import CallSift.Proofs.Text.Pieces

/-!
# Bytes as they are shown

Bytes are shown by the bytes of the text that is read of them. No byte of a slash belongs to
another character, so the reading begins anew behind each one: what stands between two
slashes is shown by itself.

* `charsOf_append_slash`: characters are read on both sides of a slash.
* `splitAt_shown`: the pieces of what is shown are the pieces, each as it is shown.
* `shown_eq_self_of_pieces`: bytes are shown as they are where their pieces are.
* `shown_eq_ascii`: and a text of other characters than the replacement is shown for itself alone.
-/
namespace CallSift.Text

open CallSift.Bytes (slash)

/-! ## Slashes -/

/-- A byte below 128 stands for its own character only. -/
theorem encode_of_ascii_mem {byte : UInt8} (hbyte : byte.toNat < 128) {c : Char}
    (h : byte ∈ String.utf8EncodeChar c) : String.utf8EncodeChar c = [byte] := by
  have hhigh : ∀ n, 128 ≤ n → n < 256 → byte ≠ UInt8.ofNat n := by
    rintro n hn hsmall rfl
    rw [UInt8.toNat_ofNat_of_lt' hsmall] at hbyte
    omega
  unfold String.utf8EncodeChar at h ⊢
  generalize c.val.toNat = v at *
  simp only at h ⊢
  by_cases hone : v ≤ 127
  · rw [if_pos hone] at h ⊢
    rw [List.mem_singleton.mp h]
  · -- each of several bytes is 128 or more
    exfalso
    rw [if_neg hone] at h
    revert h
    repeat' split
    all_goals simp only [List.mem_cons, List.not_mem_nil, or_false, imp_false, not_or]
    all_goals refine ⟨hhigh _ (by omega) (by omega), ?_⟩
    · exact hhigh _ (by omega) (by omega)
    · exact ⟨hhigh _ (by omega) (by omega), hhigh _ (by omega) (by omega)⟩
    · exact ⟨hhigh _ (by omega) (by omega), hhigh _ (by omega) (by omega),
        hhigh _ (by omega) (by omega)⟩

/-- A slash completes nothing that was begun in front of it. -/
theorem brokenLength_append_slash {bytes : List UInt8} (hsome : bytes ≠ []) (rest : List UInt8) :
    brokenLength (bytes ++ slash :: rest) = brokenLength bytes ∧
      brokenLength bytes ≤ bytes.length := by
  have hlowest : ∀ first lowest highest, secondByte? first = some (lowest, highest) →
      slash.toNat < lowest := by
    intro first lowest highest h
    unfold secondByte? at h
    repeat' split at h
    all_goals cases h
    all_goals decide
  match bytes with
  | [first] =>
    refine ⟨?_, Nat.le_refl 1⟩
    simp only [List.cons_append, List.nil_append, brokenLength]
    split
    · rfl
    · next lowest highest hsecond => rw [if_pos (.inl (hlowest _ _ _ hsecond))]
  | [first, second] =>
    have hthird : ¬ slash.toNat / 64 = 2 := by decide
    refine ⟨?_, ?_⟩
    · simp only [List.cons_append, List.nil_append, brokenLength, if_neg hthird]
    · simp only [brokenLength, List.length_cons, List.length_nil]
      repeat' split
      all_goals decide
  | first :: second :: third :: behind =>
    refine ⟨rfl, ?_⟩
    simp only [brokenLength, List.length_cons]
    repeat' split
    all_goals omega

theorem firstOf?_append_slash {bytes : List UInt8} (hsome : bytes ≠ [])
    (h : firstOf? bytes = none) (rest : List UInt8) :
    firstOf? (bytes ++ slash :: rest) = none := by
  refine Option.eq_none_iff_forall_ne_some.mpr fun c hc => ?_
  obtain ⟨behind, hbehind⟩ := firstOf?_eq_some.mp hc
  have hnone : ∀ more, bytes ≠ String.utf8EncodeChar c ++ more := fun more hmore => by
    cases h.symm.trans (firstOf?_eq_some.mpr ⟨more, hmore⟩)
  rcases List.append_eq_append_iff.mp hbehind with ⟨more, hchar, hslash⟩ | ⟨more, hmore, -⟩
  · cases more with
    | nil => exact hnone [] (by rw [hchar]; simp)
    | cons byte more =>
      -- the character would have the slash among its bytes, and others in front
      obtain rfl := (List.cons.inj hslash).1
      have hmem : slash ∈ String.utf8EncodeChar c := by rw [hchar]; simp
      have hlength := congrArg List.length (hchar.symm.trans (encode_of_ascii_mem (by decide) hmem))
      have hpos := List.length_pos_iff.mpr hsome
      simp only [List.length_append, List.length_cons, List.length_nil] at hlength
      omega
  · exact hnone more hmore

theorem charsOf_append_slash (bytes rest : List UInt8) :
    charsOf (bytes ++ slash :: rest) = charsOf bytes ++ some '/' :: charsOf rest := by
  induction bytes using charsOf_induction with
  | nil => exact charsOf_encode_append '/' rest
  | char c behind ih =>
    rw [List.append_assoc, charsOf_encode_append, charsOf_encode_append, ih, List.cons_append]
  | broken bytes hsome hfirst ih =>
    obtain ⟨hbroken, hle⟩ := brokenLength_append_slash hsome rest
    rw [charsOf_broken (by simp) (firstOf?_append_slash hsome hfirst rest), hbroken,
      List.drop_append_of_le_length hle, ih, charsOf_broken hsome hfirst, List.cons_append]

/-! ## What is shown -/

/-- The bytes of the text that is read of bytes. -/
def shown (bytes : List UInt8) : List UInt8 :=
  (charsOf bytes).flatMap fun found => String.utf8EncodeChar (found.getD replacement)

theorem toUTF8_ofBytes (bytes : List UInt8) : (ofBytes bytes).toUTF8.data.toList = shown bytes := by
  rw [toUTF8_eq_flatMap, ofBytes, String.toList_ofList, List.flatMap_map, shown]

theorem shown_append_slash (bytes rest : List UInt8) :
    shown (bytes ++ slash :: rest) = shown bytes ++ slash :: shown rest := by
  rw [shown, charsOf_append_slash, List.flatMap_append, List.flatMap_cons]
  rfl

theorem ofBytes_append_slash (bytes rest : List UInt8) :
    ofBytes (bytes ++ slash :: rest) = ofBytes bytes ++ "/" ++ ofBytes rest := by
  have hslash : "/" ++ ofBytes rest =
      String.ofList ('/' :: (charsOf rest).map (·.getD replacement)) := by
    rw [ofBytes, ← List.singleton_append, String.ofList_append]
  rw [String.append_assoc, hslash, ofBytes, charsOf_append_slash, List.map_append, List.map_cons,
    String.ofList_append]
  rfl

/-- What is read of bytes as a character stands in them. -/
theorem encode_subset_of_mem_charsOf {bytes : List UInt8} {c : Char} (h : some c ∈ charsOf bytes) :
    String.utf8EncodeChar c ⊆ bytes := by
  induction bytes using charsOf_induction with
  | nil => cases h
  | char d rest ih =>
    rw [charsOf_encode_append] at h
    rcases List.mem_cons.mp h with heq | h
    · cases heq
      exact List.subset_append_left _ rest
    · exact List.Subset.trans (ih h) (List.subset_append_right _ rest)
  | broken bytes hsome hfirst ih =>
    rw [charsOf_broken hsome hfirst] at h
    rcases List.mem_cons.mp h with heq | h
    · cases heq
    · exact List.Subset.trans (ih h) (List.drop_subset _ bytes)

theorem slash_mem_shown {bytes : List UInt8} (h : slash ∈ shown bytes) : slash ∈ bytes := by
  obtain ⟨found, hfound, hslash⟩ := List.mem_flatMap.mp h
  cases found with
  | none =>
    have hno : slash ∉ String.utf8EncodeChar replacement := by decide
    exact absurd hslash hno
  | some c => exact encode_subset_of_mem_charsOf hfound hslash

theorem splitAt_shown (bytes : List UInt8) :
    splitAt slash (shown bytes) = (splitAt slash bytes).map shown := by
  by_cases hslash : slash ∈ bytes
  · obtain ⟨before, after, hsplit, hbefore⟩ := List.eq_append_cons_of_mem hslash
    have hshorter : after.length < bytes.length := by
      rw [hsplit, List.length_append, List.length_cons]; omega
    rw [hsplit, shown_append_slash, splitAt_append, splitAt_append, splitAt_shown after,
      List.map_append, splitAt_of_not_mem hbefore, splitAt_of_not_mem (mt slash_mem_shown hbefore),
      List.map_singleton]
  · rw [splitAt_of_not_mem hslash, splitAt_of_not_mem (mt slash_mem_shown hslash),
      List.map_singleton]
termination_by bytes.length

theorem shown_eq_self_of_pieces {bytes : List UInt8}
    (h : ∀ piece ∈ splitAt slash bytes, shown piece = piece) : shown bytes = bytes := by
  by_cases hslash : slash ∈ bytes
  · obtain ⟨before, after, hsplit, hbefore⟩ := List.eq_append_cons_of_mem hslash
    have hshorter : after.length < bytes.length := by
      rw [hsplit, List.length_append, List.length_cons]; omega
    rw [hsplit, splitAt_append, splitAt_of_not_mem hbefore] at h
    obtain ⟨hfirst, hrest⟩ := List.forall_mem_cons.mp h
    rw [hsplit, shown_append_slash, hfirst, shown_eq_self_of_pieces hrest]
  · exact h bytes (by rw [splitAt_of_not_mem hslash]; simp)
termination_by bytes.length

theorem exists_map_some : ∀ {found : List (Option Char)}, none ∉ found →
    ∃ cs : List Char, found = cs.map some
  | [], _ => ⟨[], rfl⟩
  | none :: _, h => absurd List.mem_cons_self h
  | some c :: rest, h => by
    obtain ⟨cs, rfl⟩ := exists_map_some fun hrest => h (List.mem_cons_of_mem _ hrest)
    exact ⟨c :: cs, rfl⟩

/-- Without a replacement, what is shown is what there is. -/
theorem shown_eq_ascii {bytes text : List UInt8} (htext : ∀ byte ∈ text, byte.toNat < 128)
    (h : shown bytes = text) : bytes = text := by
  have hall : none ∉ charsOf bytes := fun hnone => by
    have hmem : 0xEF ∈ shown bytes := List.mem_flatMap.mpr ⟨none, hnone, by decide⟩
    exact absurd (htext 0xEF (h ▸ hmem)) (by decide)
  obtain ⟨cs, hcs⟩ := exists_map_some hall
  rw [← h, shown, hcs, List.flatMap_map]
  exact charsOf_eq_map_some.mp hcs

end CallSift.Text
