import ParanoidChain.Consensus.Header
import ParanoidChain.Lib.OrderStatistic

/-!
# Median time past

A timestamp is accepted above the median of the window before it. The window loses at most its oldest
timestamp and gains one above the median, so at most as many timestamps as before are below the old
median, and the median does not fall. While the chain is younger than the window nothing is lost.
-/

namespace ParanoidChain

open Lib

/-- The timestamps of up to eleven blocks, the last of them at `height`. -/
def timeWindow (headers : List BlockHeader) (height : Nat) : List U64 :=
  ((headers.take (height + 1)).drop (height + 1 - medianTimeBlocks)).map BlockHeader.timestamp

section Window

variable {headers : List BlockHeader} {height : Nat}

theorem timeWindow_length (inside : height < headers.length) :
    (timeWindow headers height).length = min (height + 1) medianTimeBlocks := by
  rw [timeWindow, List.length_map, List.length_drop, List.length_take]
  omega

/-- The next window, read off this one and the next timestamp. -/
theorem timeWindow_succ {header : BlockHeader} (found : headers[height + 1]? = some header) :
    (timeWindow headers (height + 1)).Sublist (timeWindow headers height ++ [header.timestamp]) := by
  obtain ⟨inside, -⟩ := List.getElem?_eq_some_iff.mp found
  have next : headers.take (height + 1 + 1) = headers.take (height + 1) ++ [header] := by
    rw [List.take_add_one, found, Option.toList_some]
  have joined : timeWindow headers height ++ [header.timestamp] =
      ((headers.take (height + 1) ++ [header]).drop (height + 1 - medianTimeBlocks)).map
        BlockHeader.timestamp := by
    rw [timeWindow, List.drop_append_of_le_length (by rw [List.length_take]; omega), List.map_append,
      List.map_singleton]
  rw [joined, timeWindow, next]
  exact (List.drop_sublist_drop_left _ (by omega)).map _

/-- In a window no timestamp is left out of the median. -/
theorem medianTimePast_of_short {times : List U64} (short : times.length ≤ medianTimeBlocks) :
    medianTimePast times =
      ((times.map BitVec.toNat).insertionSort (· ≤ ·)).getD ((times.map BitVec.toNat).length / 2) 0 := by
  rw [medianTimePast, Nat.min_eq_left short, Nat.sub_self, List.drop_zero, List.length_map]

/-- One block: its timestamp is above the median, and the median of the next window is no lower. -/
theorem medianTimePast_step {header : BlockHeader} (found : headers[height + 1]? = some header)
    (timed : validateMedianTimePast header.timestamp (timeWindow headers height) = .ok ()) :
    medianTimePast (timeWindow headers height) < header.timestamp.toNat ∧
      medianTimePast (timeWindow headers height) ≤ medianTimePast (timeWindow headers (height + 1)) := by
  obtain ⟨inside, -⟩ := List.getElem?_eq_some_iff.mp found
  have size := timeWindow_length (Nat.lt_of_succ_lt inside)
  have grown := timeWindow_length inside
  rw [validateMedianTimePast, reject_eq_ok, not_le] at timed
  refine ⟨timed, ?_⟩
  rw [medianTimePast_of_short (size.trans_le (Nat.min_le_right _ _))] at timed ⊢
  rw [medianTimePast_of_short (grown.trans_le (Nat.min_le_right _ _))]
  apply upperMedian_le _ timed
  · have moved := (timeWindow_succ found).map BitVec.toNat
    rwa [List.map_append, List.map_singleton] at moved
  · rw [List.length_map, List.length_map, size, grown]
    omega
  · rw [ne_eq, List.map_eq_nil_iff, ← List.length_eq_zero_iff, size, medianTimeBlocks]
    omega

end Window

/-- In a chain whose blocks pass `validate_median_time_past`, the median of the window does not fall
from block to block, so a timestamp is above the median at every earlier height. -/
theorem median_time_past_monotone (headers : List BlockHeader)
    (timed : ∀ height header, headers[height + 1]? = some header →
      validateMedianTimePast header.timestamp (timeWindow headers height) = .ok ()) :
    (∀ height, height + 1 < headers.length →
      medianTimePast (timeWindow headers height) ≤ medianTimePast (timeWindow headers (height + 1))) ∧
    ∀ height header, headers[height + 1]? = some header → ∀ earlier ≤ height,
      medianTimePast (timeWindow headers earlier) < header.timestamp.toNat := by
  have step (height : Nat) (inside : height + 1 < headers.length) :=
    have found := List.getElem?_eq_getElem inside
    (medianTimePast_step found (timed height _ found)).2
  have risen : ∀ earlier height, earlier ≤ height → height < headers.length →
      medianTimePast (timeWindow headers earlier) ≤ medianTimePast (timeWindow headers height) := by
    intro earlier height before
    induction height, before using Nat.le_induction with
    | base => exact fun _ => le_rfl
    | succ height before ih =>
      intro inside
      exact (ih (Nat.lt_of_succ_lt inside)).trans (step height inside)
  refine ⟨step, fun height header found earlier before => ?_⟩
  obtain ⟨inside, -⟩ := List.getElem?_eq_some_iff.mp found
  exact (risen earlier height before (Nat.lt_of_succ_lt inside)).trans_lt
    (medianTimePast_step found (timed height header found)).1

/-- Three blocks: the second window has the upper median of two timestamps. -/
theorem median_time_past_three :
    let headers := [1000, 1030, 1031].map fun time =>
      (⟨0, 0, 0, time, 0, .zero, 0, 0, 24, 0, 0⟩ : BlockHeader)
    medianTimePast (timeWindow headers 0) = 1000 ∧ medianTimePast (timeWindow headers 1) = 1030 ∧
      medianTimePast (timeWindow headers 1) ≤ medianTimePast (timeWindow headers 2) ∧
        medianTimePast (timeWindow headers 0) < 1031 := by
  intro headers
  have timed : ∀ height header, headers[height + 1]? = some header →
      validateMedianTimePast header.timestamp (timeWindow headers height) = .ok () := by
    intro height header found
    rcases height with _ | _ | height
    · cases found
      decide
    · cases found
      decide
    · simp [headers] at found
  obtain ⟨step, above⟩ := median_time_past_monotone headers timed
  exact ⟨by decide, by decide, step 1 (by decide), above 1 _ rfl 0 (by decide)⟩

end ParanoidChain
