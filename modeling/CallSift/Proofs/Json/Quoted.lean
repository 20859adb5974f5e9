import CallSift.Json.Text

/-!
# Which quoted texts a reader takes

A reader takes a quoted text up to its closing quote. Plain characters may stand between
quotes, letters behind a backslash, and codes of four digits, halves of surrogate pairs
among them.

* `Quotable`: what may stand between quotes. `readText_append` reads all of it, and
  `readText_sound` says that nothing else is read.
-/
namespace CallSift.Json

/-- What may stand between quotes. -/
inductive Quotable : List Char → Prop
  | nil : Quotable []
  | plain {c : Char} {cs : List Char} : c ≠ '"' → c ≠ '\\' → ¬ c.toNat < 32 → Quotable cs →
      Quotable (c :: cs)
  | letter {letter c : Char} {cs : List Char} : shortEscape? letter = some c → Quotable cs →
      Quotable ('\\' :: letter :: cs)
  | code {digits cs : List Char} : digits.length = 4 → (∀ d ∈ digits, (hexValue? d).isSome) →
      Quotable cs → Quotable ('\\' :: 'u' :: (digits ++ cs))

/-- The text that stands between quotes as `cs`, if its characters are whole. -/
def textOf (cs : List Char) : Option String := (readText (cs ++ ['"'])).bind (·.1)

/-- A unit that is complete leaves the reader between two characters. -/
theorem pushUnit_plain (state : TextState) (high : Option Nat) (unit : Nat) :
    ∃ high' read whole, state.pushUnit high unit = ⟨.plain high', read, whole⟩ := by
  unfold TextState.pushUnit
  split
  · exact ⟨_, _, _, rfl⟩
  split
  · cases high with
    | none => exact ⟨_, _, _, rfl⟩
    | some first => exact ⟨_, _, _, rfl⟩
  · exact ⟨_, _, _, rfl⟩

theorem readTextFrom_step {state next : TextState} {c : Char} (hc : c ≠ '"')
    (h : state.step c = some next) (cs : List Char) :
    readTextFrom state (c :: cs) = readTextFrom next cs := by
  rw [readTextFrom, h]
  exact fun _ _ heq => hc heq

theorem hexValue?_ne_quote {c : Char} (h : (hexValue? c).isSome) : c ≠ '"' := by
  rintro rfl
  cases h

/-- The digits of a code, from any of them on. -/
theorem readTextFrom_digits {cs : List Char} {high : Option Nat}
    (hcs : ∀ high read whole, ∃ text, ∀ rest,
      readTextFrom ⟨.plain high, read, whole⟩ (cs ++ '"' :: rest) = some (text, rest)) :
    ∀ (digits : List Char) (left value : Nat) (read : List Char) (whole : Bool),
      digits.length = left + 1 → (∀ d ∈ digits, (hexValue? d).isSome) → ∃ text, ∀ rest,
        readTextFrom ⟨.digits left value high, read, whole⟩ (digits ++ cs ++ '"' :: rest) =
          some (text, rest)
  | [], _, _, _, _, hlength, _ => by cases hlength
  | d :: digits, left, value, read, whole, hlength, hdigits => by
    have hd := hdigits d List.mem_cons_self
    obtain ⟨digit, hdigit⟩ := Option.isSome_iff_exists.mp hd
    have hquote := hexValue?_ne_quote hd
    cases left with
    | zero =>
      obtain rfl : digits = [] := List.length_eq_zero_iff.mp (by simpa using hlength)
      obtain ⟨high', read', whole', hpush⟩ := pushUnit_plain
        ⟨.digits 0 value high, read, whole⟩ high (value * 16 + digit)
      obtain ⟨text, htext⟩ := hcs high' read' whole'
      refine ⟨text, fun rest => ?_⟩
      have hstep : (⟨.digits 0 value high, read, whole⟩ : TextState).step d =
          some ⟨.plain high', read', whole'⟩ := by
        simp [TextState.step, hdigit, hpush]
      exact (readTextFrom_step hquote hstep _).trans (htext rest)
    | succ left =>
      obtain ⟨text, htext⟩ := readTextFrom_digits hcs digits left (value * 16 + digit) read whole
        (by simpa using hlength) fun e he => hdigits e (List.mem_cons_of_mem d he)
      refine ⟨text, fun rest => ?_⟩
      have hstep : (⟨.digits (left + 1) value high, read, whole⟩ : TextState).step d =
          some ⟨.digits left (value * 16 + digit) high, read, whole⟩ := by
        simp [TextState.step, hdigit]
      exact (readTextFrom_step hquote hstep _).trans (htext rest)

/-- What may stand between quotes is read from anywhere between two characters. -/
theorem Quotable.readTextFrom {cs : List Char} (h : Quotable cs) :
    ∀ (high : Option Nat) (read : List Char) (whole : Bool), ∃ text, ∀ rest,
      readTextFrom ⟨.plain high, read, whole⟩ (cs ++ '"' :: rest) = some (text, rest) := by
  induction h with
  | nil => exact fun high read whole => ⟨_, fun rest => rfl⟩
  | @plain c cs hquote hslash hplain _ ih =>
    intro high read whole
    obtain ⟨text, htext⟩ := ih none (c :: read) (whole && high.isNone)
    refine ⟨text, fun rest => ?_⟩
    have hstep : (⟨.plain high, read, whole⟩ : TextState).step c =
        some ⟨.plain none, c :: read, whole && high.isNone⟩ := by
      simp [TextState.step, TextState.push, hslash, hplain]
    exact (readTextFrom_step hquote hstep _).trans (htext rest)
  | @letter letter c cs hshort _ ih =>
    intro high read whole
    obtain ⟨text, htext⟩ := ih none (c :: read) (whole && high.isNone)
    refine ⟨text, fun rest => ?_⟩
    have hne : letter ≠ 'u' := by
      rintro rfl
      cases hshort
    simp [Json.readTextFrom, TextState.step, TextState.push, hne, hshort, htext]
  | @code digits cs hlength hdigits _ ih =>
    intro high read whole
    obtain ⟨text, htext⟩ := @readTextFrom_digits _ high ih digits 3 0 read whole hlength
      hdigits
    refine ⟨text, fun rest => ?_⟩
    simpa [Json.readTextFrom, TextState.step] using htext rest

theorem readText_append {cs : List Char} (h : Quotable cs) (rest : List Char) :
    readText (cs ++ '"' :: rest) = some (textOf cs, rest) := by
  obtain ⟨text, htext⟩ := h.readTextFrom none [] true
  have hread : ∀ rest, readText (cs ++ '"' :: rest) = some (text, rest) := htext
  rw [textOf, hread, hread]
  rfl

/-- What a reader in a given mode may meet before the closing quote. -/
def Behind : TextMode → List Char → Prop
  | .plain _, cs => Quotable cs
  | .escaped _, cs => Quotable ('\\' :: cs)
  | .digits left _ _, cs => ∃ digits more, cs = digits ++ more ∧ digits.length = left + 1 ∧
      (∀ d ∈ digits, (hexValue? d).isSome) ∧ Quotable more

/-- One character more, in front of what may follow it. -/
theorem Behind.step {state next : TextState} {c : Char} {cs : List Char}
    (hquote : ∀ high, state.mode = .plain high → c ≠ '"') (hstep : state.step c = some next)
    (h : Behind next.mode cs) : Behind state.mode (c :: cs) := by
  obtain ⟨mode, read, whole⟩ := state
  cases mode with
  | plain high =>
    simp only [TextState.step] at hstep
    split at hstep
    · next hslash =>
      cases hstep
      rw [hslash]
      exact h
    split at hstep
    · cases hstep
    · next hslash hplain =>
      cases hstep
      exact .plain (hquote high rfl) hslash hplain h
  | escaped high =>
    simp only [TextState.step] at hstep
    split at hstep
    · next hu =>
      cases hstep
      obtain ⟨digits, more, rfl, hlength, hdigits, hmore⟩ := h
      rw [hu]
      exact .code hlength hdigits hmore
    · obtain ⟨d, hd, rfl⟩ := Option.map_eq_some_iff.mp hstep
      exact .letter hd h
  | digits left value high =>
    obtain ⟨digit, hdigit, rfl⟩ := Option.map_eq_some_iff.mp hstep
    have hc : (hexValue? c).isSome := by rw [hdigit]; rfl
    cases left with
    | zero =>
      obtain ⟨high', read', whole', hpush⟩ := pushUnit_plain
        ⟨.digits 0 value high, read, whole⟩ high (value * 16 + digit)
      simp only [hpush] at h
      exact ⟨[c], cs, rfl, rfl, by simpa using hc, h⟩
    | succ left =>
      obtain ⟨digits, more, rfl, hlength, hdigits, hmore⟩ := h
      refine ⟨c :: digits, more, rfl, by simp [hlength], ?_, hmore⟩
      intro d hd
      rcases List.mem_cons.mp hd with rfl | hd
      · exact hc
      · exact hdigits d hd

theorem readTextFrom_sound {text : Option String} {rest : List Char} :
    ∀ (cs : List Char) (state : TextState), readTextFrom state cs = some (text, rest) →
      ∃ inner, cs = inner ++ '"' :: rest ∧ Behind state.mode inner
  | [], _, h => by cases h
  | _ :: cs, state, h => by
    unfold readTextFrom at h
    split at h
    · next high hmode =>
      cases h
      refine ⟨[], rfl, ?_⟩
      rw [hmode]
      exact .nil
    · next c _ _ hclose =>
      cases hstep : state.step c with
      | none => simp [hstep] at h
      | some next =>
        simp only [hstep] at h
        obtain ⟨inner, rfl, hinner⟩ := readTextFrom_sound cs next h
        refine ⟨c :: inner, rfl, hinner.step ?_ hstep⟩
        intro high hmode hc
        exact hclose high hmode hc

/-- Nothing else is read up to the closing quote. -/
theorem readText_sound {cs rest : List Char} {text : Option String}
    (h : readText cs = some (text, rest)) :
    ∃ inner, Quotable inner ∧ cs = inner ++ '"' :: rest ∧ text = textOf inner := by
  obtain ⟨inner, rfl, hinner⟩ := readTextFrom_sound cs .start h
  have hquotable : Quotable inner := hinner
  rw [readText_append hquotable] at h
  cases h
  exact ⟨inner, hquotable, rfl, rfl⟩

end CallSift.Json
