/-!
# Results that may be errors

Chains of fallible steps, taken apart and put together.

* `bind_eq_ok`: a chain gives a result when each of its steps does.
* `mapM_total`: so a pass over a list succeeds when it does at each item, and
* `mapM_ok`: then each value comes from one of the items, and
* `mapM_error`: so does an error.
* `mapM_moved`: a change of values and errors passes through.
-/
namespace CallSift

variable {α β ε δ : Type}

theorem bind_eq_ok {x : Except ε α} {f : α → Except ε β} {b : β} :
    (x >>= f) = .ok b ↔ ∃ a, x = .ok a ∧ f a = .ok b := by
  cases x <;> simp [bind, Except.bind]

theorem return_eq_ok {a b : α} : (return a : Except ε α) = .ok b ↔ a = b := by
  simp [pure, Except.pure]

theorem map_eq_ok {x : Except ε α} {f : α → β} {b : β} :
    x.map f = .ok b ↔ ∃ a, x = .ok a ∧ f a = b := by
  cases x <;> simp [Except.map]

theorem map_eq_error {x : Except ε α} {f : α → β} {e : ε} : x.map f = .error e ↔ x = .error e := by
  cases x <;> simp [Except.map]

theorem mapError_eq_error {x : Except ε α} {f : ε → δ} {e : δ} :
    x.mapError f = .error e ↔ ∃ e', x = .error e' ∧ f e' = e := by
  cases x with
  | error e' =>
    change Except.error (f e') = .error e ↔ _
    simp
  | ok a =>
    change Except.ok a = .error e ↔ _
    simp

theorem mapError_eq_ok {x : Except ε α} {f : ε → δ} {a : α} :
    x.mapError f = .ok a ↔ x = .ok a := by
  cases x with
  | error e =>
    change Except.error (f e) = .ok a ↔ _
    simp
  | ok b =>
    change Except.ok b = .ok a ↔ _
    simp

theorem mapM_total (f : α → Except ε β) : ∀ items : List α,
    (∀ item ∈ items, ∃ value, f item = .ok value) → ∃ values, items.mapM f = .ok values
  | [], _ => ⟨[], rfl⟩
  | item :: rest, h => by
    obtain ⟨value, hvalue⟩ := h item List.mem_cons_self
    obtain ⟨values, hvalues⟩ :=
      mapM_total f rest fun other ho => h other (List.mem_cons_of_mem item ho)
    refine ⟨value :: values, ?_⟩
    rw [List.mapM_cons]
    exact bind_eq_ok.mpr ⟨value, hvalue, bind_eq_ok.mpr ⟨values, hvalues, rfl⟩⟩

/-- The values of a pass come from its items, one from each. -/
theorem mapM_ok {f : α → Except ε β} : ∀ {items : List α} {values : List β},
    items.mapM f = .ok values → values.length = items.length ∧
      ∀ value ∈ values, ∃ item ∈ items, f item = .ok value
  | [], values, h => by
    cases h
    exact ⟨rfl, nofun⟩
  | item :: rest, values, h => by
    rw [List.mapM_cons] at h
    obtain ⟨first, hfirst, h⟩ := bind_eq_ok.mp h
    obtain ⟨others, hothers, h⟩ := bind_eq_ok.mp h
    obtain rfl := return_eq_ok.mp h
    obtain ⟨hlength, hmem⟩ := mapM_ok hothers
    refine ⟨congrArg (· + 1) hlength, fun value hvalue => ?_⟩
    rcases List.mem_cons.mp hvalue with rfl | hlater
    · exact ⟨item, List.mem_cons_self, hfirst⟩
    · obtain ⟨source, hsource, hvalue⟩ := hmem value hlater
      exact ⟨source, List.mem_cons_of_mem item hsource, hvalue⟩

/-- The error of a pass is that of one of its items. -/
theorem mapM_error {f : α → Except ε β} {e : ε} : ∀ {items : List α},
    items.mapM f = .error e → ∃ item ∈ items, f item = .error e
  | [], h => by cases h
  | item :: rest, h => by
    rw [List.mapM_cons] at h
    cases hfirst : f item with
    | error first =>
      rw [hfirst] at h
      cases h
      exact ⟨item, List.mem_cons_self, hfirst⟩
    | ok value =>
      cases hrest : rest.mapM f with
      | error later =>
        rw [hfirst, hrest] at h
        cases h
        obtain ⟨source, hsource, herror⟩ := mapM_error hrest
        exact ⟨source, List.mem_cons_of_mem item hsource, herror⟩
      | ok values =>
        rw [hfirst, hrest] at h
        cases h

/-- A pass whose steps give other values and errors gives other values and errors itself. -/
theorem mapM_moved {γ : Type} {f : α → Except ε β} {values : β → γ} {errors : ε → δ} :
    ∀ items : List α,
      items.mapM (fun item => ((f item).map values).mapError errors) =
        ((items.mapM f).map (List.map values)).mapError errors
  | [] => rfl
  | item :: rest => by
    rw [List.mapM_cons, List.mapM_cons, mapM_moved rest]
    cases f item with
    | error e => rfl
    | ok value => cases rest.mapM f <;> rfl

end CallSift
