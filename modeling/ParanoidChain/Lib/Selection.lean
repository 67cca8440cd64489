import Mathlib.Order.Lattice
import Mathlib.Data.List.Basic

/-!
# Keeping the better of two

A process that holds one value and replaces it by a candidate whose key is strictly greater. After
any arrivals it holds a value of the greatest key it has seen, so where keys tell the values apart
the order and the repetition of the arrivals do not matter; and since the key only grows, a value
that was given up never comes back.
-/

namespace Lib.Selection

variable {α κ : Type} [LinearOrder κ] (key : α → κ)

/-- The better of the held value and a candidate. -/
def adopt (held candidate : α) : α := if key held < key candidate then candidate else held

variable {key} {held candidate : α} {arrivals : List α}

theorem le_adopt_held : key held ≤ key (adopt key held candidate) := by
  unfold adopt
  split
  case isTrue better => exact better.le
  case isFalse => exact le_rfl

theorem le_adopt_candidate : key candidate ≤ key (adopt key held candidate) := by
  unfold adopt
  split
  case isTrue => exact le_rfl
  case isFalse worse => exact not_lt.mp worse

/-- What is held came from the start or from the arrivals. -/
theorem foldl_adopt_mem : arrivals.foldl (adopt key) held ∈ held :: arrivals := by
  induction arrivals generalizing held with
  | nil => exact List.mem_cons_self
  | cons first rest ih =>
    have later : rest.foldl (adopt key) (adopt key held first) ∈ adopt key held first :: rest := ih
    rcases List.mem_cons.mp later with same | later
    · rw [List.foldl_cons, same, adopt]
      split
      · exact List.mem_cons_of_mem _ List.mem_cons_self
      · exact List.mem_cons_self
    · exact List.mem_cons_of_mem _ (List.mem_cons_of_mem _ later)

/-- The key of what is held never falls. -/
theorem le_foldl_adopt : key held ≤ key (arrivals.foldl (adopt key) held) := by
  induction arrivals generalizing held with
  | nil => exact le_rfl
  | cons first rest ih => exact le_adopt_held.trans ih

/-- What is held is as good as everything seen. -/
theorem foldl_adopt_greatest :
    ∀ seen ∈ held :: arrivals, key seen ≤ key (arrivals.foldl (adopt key) held) := by
  induction arrivals generalizing held with
  | nil =>
    intro seen member
    rw [List.mem_singleton.mp member]
    exact le_rfl
  | cons first rest ih =>
    intro seen member
    rcases List.mem_cons.mp member with rfl | arrived
    · exact le_foldl_adopt
    rcases List.mem_cons.mp arrived with rfl | later
    · exact le_adopt_candidate.trans le_foldl_adopt
    · exact ih seen (List.mem_cons_of_mem _ later)

/-- Two processes that see the same values end alike, where keys tell those values apart. -/
theorem foldl_adopt_unique {other : α} {others : List α}
    (same : ∀ seen, seen ∈ held :: arrivals ↔ seen ∈ other :: others)
    (apart : ∀ a ∈ held :: arrivals, ∀ b ∈ held :: arrivals, key a = key b → a = b) :
    arrivals.foldl (adopt key) held = others.foldl (adopt key) other := by
  have first : arrivals.foldl (adopt key) held ∈ held :: arrivals := foldl_adopt_mem
  have second : others.foldl (adopt key) other ∈ held :: arrivals :=
    (same _).mpr foldl_adopt_mem
  refine apart _ first _ second (le_antisymm ?_ ?_)
  · exact foldl_adopt_greatest _ ((same _).mp first)
  · exact foldl_adopt_greatest _ second

/-- A process that moves on has moved to a greater key. -/
theorem lt_of_foldl_adopt_ne (moved : arrivals.foldl (adopt key) held ≠ held) :
    key held < key (arrivals.foldl (adopt key) held) := by
  induction arrivals generalizing held with
  | nil => exact absurd rfl moved
  | cons first rest ih =>
    rw [List.foldl_cons] at moved ⊢
    by_cases better : key held < key first
    · have step : adopt key held first = first := if_pos better
      rw [step]
      exact better.trans_le le_foldl_adopt
    · have stay : adopt key held first = held := if_neg better
      rw [stay] at moved ⊢
      exact ih moved

/-- A value that was given up is not held again. -/
theorem foldl_adopt_ne_abandoned {later : List α}
    (moved : arrivals.foldl (adopt key) held ≠ held) :
    later.foldl (adopt key) (arrivals.foldl (adopt key) held) ≠ held := by
  intro back
  have grown : key held <
      key (later.foldl (adopt key) (arrivals.foldl (adopt key) held)) :=
    (lt_of_foldl_adopt_ne moved).trans_le le_foldl_adopt
  rw [back] at grown
  exact lt_irrefl _ grown

end Lib.Selection
