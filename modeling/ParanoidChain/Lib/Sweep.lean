import Mathlib.Data.List.Basic

/-!
# Loops over disjoint parts of a table

An in-place loop whose iteration `i` rewrites only the entries it owns, from their own old values,
rewrites every entry once and as if the whole table were still the old one.
-/

namespace Lib

section Sweep

variable {σ V : Type}

/-- The rule of such a loop: `owner` says which iteration rewrites an entry and `new` what it
becomes. -/
theorem foldl_sweep (get : σ → Nat → V) (good : σ → Prop) (owner : Nat → Nat)
    (new : (Nat → V) → Nat → V) (step : σ → Nat → σ) (count : Nat)
    (keeps : ∀ s i, i < count → good s → good (step s i))
    (own : ∀ s i pos, i < count → good s → owner pos = i →
      get (step s i) pos = new (get s) pos)
    (frame : ∀ s i pos, i < count → good s → owner pos ≠ i → get (step s i) pos = get s pos)
    (within : ∀ f g pos, (∀ other, owner other = owner pos → f other = g other) →
      new f pos = new g pos)
    {s : σ} (start : good s) :
    good ((List.range count).foldl step s) ∧ ∀ pos, get ((List.range count).foldl step s) pos =
      if owner pos < count then new (get s) pos else get s pos := by
  induction count with
  | zero => exact ⟨start, fun pos => by simp⟩
  | succ count ih =>
    obtain ⟨kept, before⟩ := ih (fun s i inside => keeps s i (by omega))
      (fun s i pos inside => own s i pos (by omega))
      (fun s i pos inside => frame s i pos (by omega))
    rw [List.range_succ, List.foldl_append, List.foldl_cons, List.foldl_nil]
    refine ⟨keeps _ _ (Nat.lt_succ_self count) kept, fun pos => ?_⟩
    by_cases last : owner pos = count
    · -- the entries of the last iteration were not touched before
      rw [own _ _ pos (Nat.lt_succ_self count) kept last, if_pos (by omega)]
      refine within _ _ pos fun other same => ?_
      rw [before other, if_neg (by omega)]
    · rw [frame _ _ pos (Nat.lt_succ_self count) kept last, before pos]
      by_cases earlier : owner pos < count
      · rw [if_pos earlier, if_pos (by omega)]
      · rw [if_neg earlier, if_neg (by omega)]

end Sweep

end Lib
