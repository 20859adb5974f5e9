import CallSift.Json.Codec
import CallSift.Json.Reader
import Mathlib.Data.List.TakeDrop
import Mathlib.Data.List.TakeWhile

/-!
# Numbers are read back

A number has a sign, a whole part, a fraction and an exponent. A reader takes the longest
one off the front of a text, up to what can be no part of it. An integer is written as
digits without leading zeros, behind a minus sign if it is negative, and the token stands
for the integer again.

* `IsNumber`: which characters are a number. `readNumber_append` takes such a number, and
  `readNumber_sound` says that nothing else is taken.
* `isNatural_toString`, `isInteger_toString`: integers are written as such tokens.
* `natOfDigits?_toString`, `intOfDigits?_toString`: the tokens stand for them.
-/
namespace CallSift.Json

/-- The digits of a natural number: the first is zero only if it stands alone. -/
structure IsNatural (digits : List Char) : Prop where
  nonempty : digits ≠ []
  all : ∀ c ∈ digits, isDigit c = true
  leading : ∀ tail, digits = '0' :: tail → tail = []

def IsInteger (cs : List Char) : Prop :=
  IsNatural cs ∨ ∃ digits, cs = '-' :: digits ∧ IsNatural digits

structure Digits (digits : List Char) : Prop where
  nonempty : digits ≠ []
  all : ∀ c ∈ digits, isDigit c = true

inductive Fraction : List Char → Prop
  | absent : Fraction []
  | point {digits : List Char} : Digits digits → Fraction ('.' :: digits)

inductive Exponent : List Char → Prop
  | absent : Exponent []
  | bare {e : Char} {digits : List Char} : e = 'e' ∨ e = 'E' → Digits digits →
      Exponent (e :: digits)
  | signed {e sign : Char} {digits : List Char} : e = 'e' ∨ e = 'E' → sign = '+' ∨ sign = '-' →
      Digits digits → Exponent (e :: sign :: digits)

/-- A number without its sign. -/
inductive IsUnsigned : List Char → Prop
  | parts {whole fraction exponent : List Char} : IsNatural whole → Fraction fraction →
      Exponent exponent → IsUnsigned (whole ++ fraction ++ exponent)

inductive IsNumber : List Char → Prop
  | plain {number : List Char} : IsUnsigned number → IsNumber number
  | negative {number : List Char} : IsUnsigned number → IsNumber ('-' :: number)

theorem IsNatural.head {digits : List Char} (h : IsNatural digits) :
    ∃ c tail, digits = c :: tail ∧ isDigit c = true := by
  obtain ⟨c, tail, rfl⟩ := List.exists_cons_of_ne_nil h.nonempty
  exact ⟨c, tail, rfl, h.all c List.mem_cons_self⟩

theorem IsNatural.digits {digits : List Char} (h : IsNatural digits) : Digits digits :=
  ⟨h.nonempty, h.all⟩

theorem IsInteger.isNumber {cs : List Char} (h : IsInteger cs) : IsNumber cs := by
  have hunsigned : ∀ {digits : List Char}, IsNatural digits → IsUnsigned digits := by
    intro digits h
    have hparts := IsUnsigned.parts h .absent .absent
    rwa [List.append_nil, List.append_nil] at hparts
  rcases h with h | ⟨digits, rfl, h⟩
  · exact .plain (hunsigned h)
  · exact .negative (hunsigned h)

/-! ## Reading -/

/-- What follows a number is no part of it. -/
def Ends (rest : List Char) : Prop :=
  ∀ c, rest.head? = some c → isDigit c = false ∧ c ≠ '.' ∧ c ≠ 'e' ∧ c ≠ 'E'

/-- What follows digits goes on with none. -/
def NoDigit (rest : List Char) : Prop := ∀ c, rest.head? = some c → isDigit c = false

theorem readDigits_append {digits rest : List Char} (h : Digits digits) (hrest : NoDigit rest) :
    readDigits (digits ++ rest) = some (digits, rest) := by
  have htake : rest.takeWhile isDigit = [] := by
    cases rest with
    | nil => rfl
    | cons c tail => simp [hrest c rfl]
  have hdrop : rest.dropWhile isDigit = rest := by
    cases rest with
    | nil => rfl
    | cons c tail => simp [hrest c rfl]
  unfold readDigits
  rw [List.span_eq_takeWhile_dropWhile, List.takeWhile_append_of_pos h.all,
    List.dropWhile_append_of_pos h.all, htake, hdrop, List.append_nil]
  obtain ⟨c, tail, rfl⟩ := List.exists_cons_of_ne_nil h.nonempty
  rfl

theorem readDigits_sound {cs digits rest : List Char} (h : readDigits cs = some (digits, rest)) :
    Digits digits ∧ cs = digits ++ rest := by
  unfold readDigits at h
  rw [List.span_eq_takeWhile_dropWhile] at h
  split at h
  · cases h
  · next hne =>
    cases h
    refine ⟨⟨?_, fun c hc => List.mem_takeWhile_imp hc⟩, List.takeWhile_append_dropWhile.symm⟩
    intro hnil
    exact hne (cs.dropWhile isDigit) (by rw [hnil])

section
variable {cs whole fraction exponent number rest : List Char}

theorem readExponent_append (h : Exponent exponent) (hrest : Ends rest) :
    readExponent (exponent ++ rest) = some (exponent, rest) := by
  have hdigits : NoDigit rest := fun c hc => (hrest c hc).1
  have hsigned : ∀ digits, Digits digits → readSigned (digits ++ rest) = some (digits, rest) := by
    intro digits hd
    have hread := readDigits_append hd hdigits
    obtain ⟨c, tail, rfl⟩ := List.exists_cons_of_ne_nil hd.nonempty
    have hc := hd.all c List.mem_cons_self
    unfold readSigned
    split
    · next heq => cases heq; cases hc
    · next heq => cases heq; cases hc
    · exact hread
  cases h with
  | absent =>
    rw [List.nil_append]
    unfold readExponent
    split
    · exact absurd rfl (hrest 'e' rfl).2.2.1
    · exact absurd rfl (hrest 'E' rfl).2.2.2
    · rfl
  | bare he hd =>
    rcases he with rfl | rfl <;> simp [readExponent, hsigned _ hd]
  | signed he hs hd =>
    rcases he with rfl | rfl <;> rcases hs with rfl | rfl <;>
      simp [readExponent, readSigned, readDigits_append hd hdigits]

/-- An exponent, or what follows the number, goes on with neither digit nor point. -/
theorem Exponent.head (h : Exponent exponent) (hrest : Ends rest) (c : Char)
    (hc : (exponent ++ rest).head? = some c) : isDigit c = false ∧ c ≠ '.' := by
  cases h with
  | absent => exact ⟨(hrest c hc).1, (hrest c hc).2.1⟩
  | bare he _ | signed he _ _ =>
    cases hc
    rcases he with rfl | rfl <;> decide

theorem readFraction_append (h : Fraction fraction)
    (hrest : ∀ c, rest.head? = some c → isDigit c = false ∧ c ≠ '.') :
    readFraction (fraction ++ rest) = some (fraction, rest) := by
  cases h with
  | absent =>
    rw [List.nil_append]
    unfold readFraction
    split
    · exact absurd rfl (hrest '.' rfl).2
    · rfl
  | point hd => simp [readFraction, readDigits_append hd fun c hc => (hrest c hc).1]

theorem Fraction.noDigit (h : Fraction fraction) (hrest : NoDigit rest) :
    NoDigit (fraction ++ rest) := by
  cases h with
  | absent => exact hrest
  | point _ => rintro c ⟨⟩; rfl

theorem readWhole_append (h : IsNatural whole) (hrest : NoDigit rest) :
    readWhole (whole ++ rest) = some (whole, rest) := by
  unfold readWhole
  rw [readDigits_append h.digits hrest]
  split
  · next heq =>
    cases heq
    cases h.leading _ rfl
  · rfl

theorem readUnsigned_append (h : IsUnsigned number) (hrest : Ends rest) :
    readUnsigned (number ++ rest) = some (number, rest) := by
  obtain @⟨whole, fraction, exponent, hwhole, hfraction, hexponent⟩ := h
  have hhead := hexponent.head hrest
  have hnoDigit := hfraction.noDigit fun c hc => (hhead c hc).1
  rw [List.append_assoc, List.append_assoc]
  simp [readUnsigned, readWhole_append hwhole hnoDigit, readFraction_append hfraction hhead,
    readExponent_append hexponent hrest]

/-- A number begins with a digit or with its sign. -/
theorem IsNumber.head (h : IsNumber number) :
    ∃ c tail, number = c :: tail ∧ (isDigit c = true ∨ c = '-') := by
  cases h with
  | negative _ => exact ⟨_, _, rfl, .inr rfl⟩
  | plain h =>
    obtain @⟨whole, fraction, exponent, hwhole, -, -⟩ := h
    obtain ⟨c, tail, rfl, hc⟩ := hwhole.head
    exact ⟨c, tail ++ fraction ++ exponent, rfl, .inl hc⟩

theorem readNumber_append (h : IsNumber number) (hrest : Ends rest) :
    readNumber (number ++ rest) = some (.token (String.ofList number), rest) := by
  cases h with
  | negative h => simp [readNumber, readUnsigned_append h hrest]
  | plain h =>
    have hread := readUnsigned_append h hrest
    obtain @⟨whole, fraction, exponent, hwhole, -, -⟩ := h
    obtain ⟨c, tail, rfl, hc⟩ := hwhole.head
    unfold readNumber
    split
    · next heq => cases heq; cases hc
    · rw [hread]; rfl

/-! ## Nothing else is read -/

theorem readSigned_sound {signed : List Char} (h : readSigned cs = some (signed, rest)) :
    cs = signed ++ rest ∧ (Digits signed ∨
      ∃ sign digits, signed = sign :: digits ∧ (sign = '+' ∨ sign = '-') ∧ Digits digits) := by
  unfold readSigned at h
  split at h
  · obtain ⟨⟨digits, after⟩, hread, heq⟩ := Option.map_eq_some_iff.mp h
    cases heq
    obtain ⟨hd, rfl⟩ := readDigits_sound hread
    exact ⟨rfl, .inr ⟨_, _, rfl, .inl rfl, hd⟩⟩
  · obtain ⟨⟨digits, after⟩, hread, heq⟩ := Option.map_eq_some_iff.mp h
    cases heq
    obtain ⟨hd, rfl⟩ := readDigits_sound hread
    exact ⟨rfl, .inr ⟨_, _, rfl, .inr rfl, hd⟩⟩
  · obtain ⟨hd, rfl⟩ := readDigits_sound h
    exact ⟨rfl, .inl hd⟩

theorem readExponent_sound (h : readExponent cs = some (exponent, rest)) :
    Exponent exponent ∧ cs = exponent ++ rest := by
  have hletter : ∀ {e : Char} {signed : List Char}, e = 'e' ∨ e = 'E' → (Digits signed ∨
      ∃ sign digits, signed = sign :: digits ∧ (sign = '+' ∨ sign = '-') ∧ Digits digits) →
      Exponent (e :: signed) := by
    rintro e signed he (hd | ⟨sign, digits, rfl, hs, hd⟩)
    · exact .bare he hd
    · exact .signed he hs hd
  unfold readExponent at h
  split at h
  · obtain ⟨⟨signed, after⟩, hread, heq⟩ := Option.map_eq_some_iff.mp h
    cases heq
    obtain ⟨rfl, hsigned⟩ := readSigned_sound hread
    exact ⟨hletter (.inl rfl) hsigned, rfl⟩
  · obtain ⟨⟨signed, after⟩, hread, heq⟩ := Option.map_eq_some_iff.mp h
    cases heq
    obtain ⟨rfl, hsigned⟩ := readSigned_sound hread
    exact ⟨hletter (.inr rfl) hsigned, rfl⟩
  · cases h
    exact ⟨.absent, rfl⟩

theorem readFraction_sound (h : readFraction cs = some (fraction, rest)) :
    Fraction fraction ∧ cs = fraction ++ rest := by
  unfold readFraction at h
  split at h
  · obtain ⟨⟨digits, after⟩, hread, heq⟩ := Option.map_eq_some_iff.mp h
    cases heq
    obtain ⟨hd, rfl⟩ := readDigits_sound hread
    exact ⟨.point hd, rfl⟩
  · cases h
    exact ⟨.absent, rfl⟩

theorem readWhole_sound (h : readWhole cs = some (whole, rest)) :
    IsNatural whole ∧ cs = whole ++ rest := by
  unfold readWhole at h
  split at h
  · cases h
  · next hzero =>
    obtain ⟨hd, hcs⟩ := readDigits_sound h
    refine ⟨⟨hd.nonempty, hd.all, ?_⟩, hcs⟩
    rintro tail rfl
    cases tail with
    | nil => rfl
    | cons c tail => exact absurd h (hzero c tail rest)

theorem readUnsigned_sound (h : readUnsigned cs = some (number, rest)) :
    IsUnsigned number ∧ cs = number ++ rest := by
  unfold readUnsigned at h
  obtain ⟨⟨whole, behind⟩, hwhole, h⟩ := Option.bind_eq_some_iff.mp h
  obtain ⟨⟨fraction, after⟩, hfraction, h⟩ := Option.bind_eq_some_iff.mp h
  obtain ⟨⟨exponent, last⟩, hexponent, h⟩ := Option.bind_eq_some_iff.mp h
  cases h
  obtain ⟨hw, rfl⟩ := readWhole_sound hwhole
  obtain ⟨hf, rfl⟩ := readFraction_sound hfraction
  obtain ⟨hx, rfl⟩ := readExponent_sound hexponent
  exact ⟨.parts hw hf hx, by simp⟩

theorem readNumber_sound {value : Value} (h : readNumber cs = some (value, rest)) :
    ∃ number, IsNumber number ∧ cs = number ++ rest ∧ value = .token (String.ofList number) := by
  unfold readNumber at h
  split at h
  · obtain ⟨⟨number, after⟩, hread, heq⟩ := Option.map_eq_some_iff.mp h
    cases heq
    obtain ⟨hnumber, rfl⟩ := readUnsigned_sound hread
    exact ⟨_, .negative hnumber, rfl, rfl⟩
  · obtain ⟨⟨number, after⟩, hread, heq⟩ := Option.map_eq_some_iff.mp h
    cases heq
    obtain ⟨hnumber, rfl⟩ := readUnsigned_sound hread
    exact ⟨_, .plain hnumber, rfl, rfl⟩

end

/-! ## Writing -/

theorem isNatural_toDigits (n : Nat) : IsNatural (Nat.toDigits 10 n) := by
  refine ⟨Nat.toDigits_ne_nil, ?_, ?_⟩
  · intro c hc
    have hdigit : c.isDigit = true := Nat.isDigit_of_mem_toDigits (by decide) (by decide) hc
    simpa [isDigit, Char.isDigit, Char.le_def] using hdigit
  -- the first digit of a larger number is that of its tenth part
  · induction n using Nat.strongRecOn with
    | ind n ih =>
      intro tail h
      by_cases hn : n < 10
      · rw [Nat.toDigits_of_lt_base hn] at h
        exact (List.cons.inj h).2.symm
      · rw [Nat.toDigits_of_base_le (by decide) (by omega)] at h
        obtain ⟨c, front, hfront⟩ :=
          List.exists_cons_of_ne_nil (Nat.toDigits_ne_nil (n := n / 10) (b := 10))
        rw [hfront] at h
        cases h
        obtain rfl := ih (n / 10) (by omega) front hfront
        have hvalue := Nat.ofDigitChars_ten_toDigits (n := n / 10)
        rw [hfront] at hvalue
        have hzero : 0 = n / 10 := hvalue
        omega

theorem isNatural_toString (n : Nat) : IsNatural (toString n).toList := by
  rw [Nat.toString_eq_repr, Nat.toList_repr]
  exact isNatural_toDigits n

theorem toList_toString_int (n : Int) : (toString n).toList = Nat.toDigits 10 n.toNat ∧ 0 ≤ n ∨
    (toString n).toList = '-' :: Nat.toDigits 10 (-n).toNat ∧ n < 0 := by
  rw [Int.toString_eq_repr, Int.repr_eq_if]
  by_cases h : 0 ≤ n
  · rw [if_pos h, Nat.toList_repr]
    exact .inl ⟨rfl, h⟩
  · rw [if_neg h, String.toList_append, Nat.toList_repr]
    exact .inr ⟨rfl, by omega⟩

theorem isInteger_toString (n : Int) : IsInteger (toString n).toList := by
  rcases toList_toString_int n with ⟨h, -⟩ | ⟨h, -⟩
  · exact .inl (h ▸ isNatural_toDigits n.toNat)
  · exact .inr ⟨_, h, isNatural_toDigits (-n).toNat⟩

theorem natOfDigits?_toDigits (n : Nat) : natOfDigits? (Nat.toDigits 10 n) = some n := by
  have hall : (Nat.toDigits 10 n).all Char.isDigit = true :=
    List.all_eq_true.mpr fun c hc => Nat.isDigit_of_mem_toDigits (by decide) (by decide) hc
  rw [natOfDigits?, if_pos ⟨Nat.toDigits_ne_nil, hall⟩, Nat.ofDigitChars_ten_toDigits]

theorem natOfDigits?_toString (n : Nat) : natOfDigits? (toString n).toList = some n := by
  rw [Nat.toString_eq_repr, Nat.toList_repr]
  exact natOfDigits?_toDigits n

theorem intOfDigits?_toString (n : Int) : intOfDigits? (toString n).toList = some n := by
  rcases toList_toString_int n with ⟨h, hn⟩ | ⟨h, hn⟩
  · rw [h, intOfDigits?]
    · rw [natOfDigits?_toDigits, Option.map_some, Int.ofNat_eq_natCast, Int.toNat_of_nonneg hn]
    · intro digits heq
      obtain ⟨c, tail, hc, hdigit⟩ := (isNatural_toDigits n.toNat).head
      rw [hc] at heq
      cases heq
      cases hdigit
  · have hpos : (-n).toNat ≠ 0 := by omega
    rw [h, intOfDigits?, natOfDigits?_toDigits, Option.bind_some, if_neg hpos]
    simp only [Option.some.injEq]
    omega

end CallSift.Json
