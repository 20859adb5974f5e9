import CallSift.Proofs.Except
import CallSift.Proofs.Source.Extent
import Mathlib.Data.List.Forall2

/-!
# Texts one behind the other

Texts stand in turn between two offsets of a source if there are stretches for them there, in
their order, of which none begins before the one before it ends.

* `InTurn.append`: texts in turn, and others behind them.
* `inTurn_mapM`: texts that are read from items one behind the other stand in turn.
-/
namespace CallSift.Source

/-- The texts are those of stretches between two offsets, one behind the other. -/
def InTurn (source : Source) (start stop : Nat) (texts : List String) : Prop :=
  ∃ ranges : List (Nat × Nat),
    List.Forall₂ (fun range text => source.slice? range.1 range.2 = some text) ranges texts ∧
    ranges.Pairwise (fun range later => range.2 ≤ later.1) ∧
    ∀ range ∈ ranges, start ≤ range.1 ∧ range.2 ≤ stop

variable {source : Source} {start middle stop : Nat}

/-- Nothing stands between a boundary and itself. -/
theorem slice?_self {offset : Nat} (h : source.Boundary offset) :
    source.slice? offset offset = some "" := by
  obtain ⟨pre, post, hchars, rfl⟩ := h
  rw [slice?, if_pos (Nat.le_refl _), hchars, Text.dropBytes?_append, Option.bind_some,
    Nat.sub_self]
  exact congrArg (Option.map String.ofList) (Text.takeBytes?_append [] post)

namespace InTurn

variable {texts later : List String}

theorem nil (source : Source) (start stop : Nat) : source.InTurn start stop [] :=
  ⟨[], .nil, .nil, nofun⟩

theorem single {text : String} (h : source.slice? start stop = some text) :
    source.InTurn start stop [text] := by
  refine ⟨[(start, stop)], .cons h .nil, List.pairwise_singleton _ _, ?_⟩
  intro range hrange
  obtain rfl := List.mem_singleton.mp hrange
  exact ⟨Nat.le_refl _, Nat.le_refl _⟩

theorem mono (h : source.InTurn start stop texts) {outerStart outerStop : Nat}
    (hstart : outerStart ≤ start) (hstop : stop ≤ outerStop) :
    source.InTurn outerStart outerStop texts := by
  obtain ⟨ranges, htexts, hordered, hinside⟩ := h
  refine ⟨ranges, htexts, hordered, fun range hrange => ?_⟩
  have hbounds := hinside range hrange
  omega

/-- Texts in turn up to an offset stand in front of those in turn from there. -/
theorem append (h : source.InTurn start middle texts) (hlater : source.InTurn middle stop later)
    (hstart : start ≤ middle) (hstop : middle ≤ stop) :
    source.InTurn start stop (texts ++ later) := by
  obtain ⟨ranges, htexts, hordered, hinside⟩ := h
  obtain ⟨others, hothers, hothersOrdered, hothersInside⟩ := hlater
  refine ⟨ranges ++ others, List.rel_append htexts hothers, ?_, ?_⟩
  · refine List.pairwise_append.mpr ⟨hordered, hothersOrdered, ?_⟩
    intro range hrange other hother
    have hbefore := hinside range hrange
    have hbehind := hothersInside other hother
    omega
  · intro range hrange
    rcases List.mem_append.mp hrange with hrange | hrange
    · have hbounds := hinside range hrange
      omega
    · have hbounds := hothersInside range hrange
      omega

end InTurn

/-- Texts that are read one by one from items stand in turn if each stands where its item does and
the items stand one behind the other. -/
theorem inTurn_mapM {α ε : Type} {read : α → Except ε String} {first last : α → Nat} :
    ∀ {items : List α} {texts : List String} {start : Nat}, items.mapM read = .ok texts →
      start ≤ stop →
      (∀ item ∈ items, ∀ text, read item = .ok text →
        source.InTurn (first item) (last item) [text]) →
      items.Pairwise (fun item later => last item ≤ first later) →
      (∀ item ∈ items, start ≤ first item ∧ first item ≤ last item ∧ last item ≤ stop) →
      source.InTurn start stop texts
  | [], _, start, h, _, _, _, _ => by
    cases h
    exact .nil source start stop
  | item :: rest, _, start, h, hle, hread, hordered, hinside => by
    rw [List.mapM_cons] at h
    obtain ⟨text, htext, h⟩ := bind_eq_ok.mp h
    obtain ⟨others, hothers, h⟩ := bind_eq_ok.mp h
    obtain rfl := return_eq_ok.mp h
    obtain ⟨hbehind, hrestOrdered⟩ := List.pairwise_cons.mp hordered
    obtain ⟨hitem, hrestInside⟩ := List.forall_mem_cons.mp hinside
    -- what is left stands behind this item
    have hrest : source.InTurn (last item) stop others := by
      refine inTurn_mapM hothers hitem.2.2
        (fun other hother => hread other (List.mem_cons_of_mem _ hother)) hrestOrdered ?_
      intro other hother
      exact ⟨hbehind other hother, (hrestInside other hother).2⟩
    have hown := (hread item List.mem_cons_self text htext).mono hitem.1 (Nat.le_refl _)
    exact hown.append hrest (by omega) hitem.2.2

end CallSift.Source
