import ParanoidChain.Consensus.Elapsed
import ParanoidChain.Consensus.Header
import ParanoidChain.Lib.Control
import Mathlib.Algebra.BigOperators.Intervals
import Mathlib.Tactic.Ring

/-!
# The elapsed time is a sum over the heights

The three branches of `ideal_elapsed` count the heights of the old and of the new interval between two
heights. Counted that way, one more height adds its own interval, so the function is the sum of the
intervals, and everything else about it is a fact about sums.
-/

namespace ParanoidChain

open Finset Lib

variable (schedule : ForkSchedule)

/-- The seconds from height `anchor` to height `child`, height by height. -/
def elapsedByHeight (anchor child : Nat) : Nat := ∑ height ∈ Ioc anchor child, schedule.blockTime height

theorem elapsedByHeight_succ {anchor child : Nat} (later : anchor ≤ child) :
    elapsedByHeight schedule anchor (child + 1) =
      elapsedByHeight schedule anchor child + schedule.blockTime (child + 1) := by
  rw [elapsedByHeight, ← sum_Ioc_consecutive _ later (Nat.le_succ child)]
  simp [elapsedByHeight]

theorem idealElapsed_of_le {anchor child : Nat} (earlier : child ≤ anchor) :
    schedule.idealElapsed anchor child = 0 := by
  unfold ForkSchedule.idealElapsed
  have none : child - anchor = 0 := by omega
  rcases schedule.v2 with _ | activation
  · simp [none]
  · dsimp only
    split
    · have start : child - (if activation.height - 1 < anchor then anchor
          else activation.height - 1) = 0 := by
        split <;> omega
      rw [none, start]
      simp
    · simp [none]

/-- One more height adds its interval. The fork block counts as a new one. -/
theorem idealElapsed_succ {anchor child : Nat} (later : anchor ≤ child) :
    schedule.idealElapsed anchor (child + 1) =
      schedule.idealElapsed anchor child + schedule.blockTime (child + 1) := by
  unfold ForkSchedule.idealElapsed ForkSchedule.blockTime
  have count : child + 1 - anchor = child - anchor + 1 := by omega
  rcases schedule.v2 with _ | activation
  · dsimp only
    rw [count, Nat.succ_mul]
  · have positive := activation.height_pos
    dsimp only
    generalize startIs : (if activation.height - 1 < anchor then anchor
      else activation.height - 1) = start
    have lower : anchor ≤ start ∧ activation.height - 1 ≤ start := by
      split at startIs <;> omega
    by_cases after : activation.height ≤ child
    · -- both ends are in the new interval or past it
      have reached : start ≤ child := by split at startIs <;> omega
      have fresh : child + 1 - start = child - start + 1 := by omega
      have old : child - anchor + 1 - (child - start + 1) = child - anchor - (child - start) := by omega
      rw [if_pos (by omega), if_pos after, if_pos (by omega), count, fresh, old, Nat.succ_mul]
      omega
    · by_cases fork : activation.height ≤ child + 1
      · have here : start = child := by split at startIs <;> omega
        subst here
        have fresh : start + 1 - start = 1 := by omega
        rw [if_pos fork, if_neg after, if_pos fork, fresh, count, Nat.add_sub_cancel, Nat.one_mul]
      · rw [if_neg fork, if_neg after, if_neg fork, count, Nat.succ_mul]

theorem idealElapsed_eq (anchor child : Nat) :
    schedule.idealElapsed anchor child = elapsedByHeight schedule anchor child := by
  induction child with
  | zero => rw [idealElapsed_of_le schedule (Nat.zero_le anchor)]; simp [elapsedByHeight]
  | succ child ih =>
    by_cases later : anchor ≤ child
    · rw [idealElapsed_succ schedule later, elapsedByHeight_succ schedule later, ih]
    · rw [idealElapsed_of_le schedule (by omega), elapsedByHeight, Ioc_eq_empty (by omega), sum_empty]

theorem blockTime_pos (height : Nat) : 0 < schedule.blockTime height := by
  unfold ForkSchedule.blockTime
  have legacy : 0 < blockTime := by decide
  rcases schedule.v2 with _ | activation
  · exact legacy
  · dsimp only
    split
    · exact activation.blockTime_pos
    · exact legacy

theorem elapsedByHeight_strictMono : StrictMono (elapsedByHeight schedule 0) := by
  refine strictMono_nat_of_lt_succ fun height => ?_
  rw [elapsedByHeight_succ schedule (Nat.zero_le height)]
  exact Nat.lt_add_of_pos_right (blockTime_pos schedule _)

/-- At most one height is the last one within a duration. -/
theorem last_within_unique {duration first second : Nat}
    (reached : elapsedByHeight schedule 0 first ≤ duration)
    (passed : duration < elapsedByHeight schedule 0 (first + 1))
    (reached' : elapsedByHeight schedule 0 second ≤ duration)
    (passed' : duration < elapsedByHeight schedule 0 (second + 1)) : first = second := by
  have grows := elapsedByHeight_strictMono schedule
  have below : first < second + 1 := grows.lt_iff_lt.1 (by omega)
  have above : second < first + 1 := grows.lt_iff_lt.1 (by omega)
  omega

/-- `BLOCK_TIME` intervals up to the fork. -/
theorem elapsed_legacy {height : Nat} (legacy : ∀ activation ∈ schedule.v2, height < activation.height) :
    elapsedByHeight schedule 0 height = height * blockTime := by
  rw [← idealElapsed_eq]
  unfold ForkSchedule.idealElapsed
  rcases v2 : schedule.v2 with _ | activation
  · simp
  · dsimp only
    rw [if_neg (by have := legacy activation (by simp [v2]); omega), Nat.sub_zero]

/-- New intervals from the fork on. -/
theorem elapsed_new {activation : V2Activation} (v2 : schedule.v2 = some activation) (fresh : Nat) :
    elapsedByHeight schedule 0 (activation.height - 1 + fresh) =
      (activation.height - 1) * blockTime + fresh * activation.blockTime := by
  have positive := activation.height_pos
  induction fresh with
  | zero =>
    rw [Nat.zero_mul, Nat.add_zero, Nat.add_zero]
    refine elapsed_legacy schedule fun other member => ?_
    rw [v2, Option.mem_some_iff] at member
    subst member
    omega
  | succ fresh ih =>
    have interval : schedule.blockTime (activation.height - 1 + fresh + 1) = activation.blockTime := by
      unfold ForkSchedule.blockTime
      rw [v2]
      exact if_pos (by omega)
    rw [← Nat.add_assoc, elapsedByHeight_succ schedule (Nat.zero_le _), ih, interval, Nat.succ_mul]
    omega

/-- The end height is reached within the duration, and the next height is not. -/
theorem endHeight_last :
    elapsedByHeight schedule 0 (developmentAllocationEndHeightWithSchedule schedule) ≤
        developmentAllocationDurationSeconds ∧
      developmentAllocationDurationSeconds <
        elapsedByHeight schedule 0 (developmentAllocationEndHeightWithSchedule schedule + 1) := by
  have day : developmentAllocationEndHeight * blockTime = developmentAllocationDurationSeconds := by
    decide
  -- the legacy period: a whole number of intervals, and the next one is longer than nothing
  have legacy (before : ∀ activation ∈ schedule.v2, developmentAllocationEndHeight < activation.height) :
      elapsedByHeight schedule 0 developmentAllocationEndHeight ≤
          developmentAllocationDurationSeconds ∧
        developmentAllocationDurationSeconds <
          elapsedByHeight schedule 0 (developmentAllocationEndHeight + 1) := by
    rw [elapsedByHeight_succ schedule (Nat.zero_le _), elapsed_legacy schedule before, day]
    exact ⟨le_rfl, Nat.lt_add_of_pos_right (blockTime_pos schedule _)⟩
  unfold developmentAllocationEndHeightWithSchedule
  rcases v2 : schedule.v2 with _ | activation
  · exact legacy (by simp [v2])
  · dsimp only
    split
    case isTrue late => exact legacy (by simpa [v2] using late)
    case isFalse early =>
      have within : (activation.height - 1) * blockTime ≤ developmentAllocationDurationSeconds := by
        rw [← day]
        exact Nat.mul_le_mul_right _ (by omega)
      generalize remainingIs : developmentAllocationDurationSeconds -
        (activation.height - 1) * blockTime = remaining
      have division := Nat.div_add_mod remaining activation.blockTime
      have small := Nat.mod_lt remaining activation.blockTime_pos
      have next : (remaining / activation.blockTime + 1) * activation.blockTime =
          activation.blockTime * (remaining / activation.blockTime) + activation.blockTime := by ring
      have whole : remaining / activation.blockTime * activation.blockTime =
          activation.blockTime * (remaining / activation.blockTime) := by ring
      rw [Nat.add_assoc, elapsed_new schedule v2, elapsed_new schedule v2, next, whole]
      omega

/-! ## Machine integers -/

/-- The fields of a schedule are words of 64 bits. -/
def ForkSchedule.IsWords : Prop :=
  ∀ activation ∈ schedule.v2, activation.height < 2 ^ 64 ∧ activation.blockTime < 2 ^ 64

/-- No operation of `ideal_elapsed` leaves its type. -/
theorem idealElapsedInType_eq (words : schedule.IsWords) {anchor child : Nat} (small : child < 2 ^ 64) :
    schedule.idealElapsedInType anchor child = some (schedule.idealElapsed anchor child) := by
  have legacy : (child - anchor) * blockTime < 2 ^ 128 := by
    change _ * 20 < _
    omega
  unfold ForkSchedule.idealElapsedInType ForkSchedule.idealElapsed
  rcases v2 : schedule.v2 with _ | activation
  · exact mulInType_eq legacy
  · have positive := activation.height_pos
    obtain ⟨-, shortInterval⟩ := words activation (by simp [v2])
    dsimp only
    split
    case isFalse => exact mulInType_eq legacy
    case isTrue reached =>
      rw [subInType_eq (by omega : 1 ≤ activation.height), Option.bind_eq_bind, Option.bind_some]
      generalize startIs : (if activation.height - 1 < anchor then anchor
        else activation.height - 1) = start
      have lower : anchor ≤ start := by split at startIs <;> omega
      rw [subInType_eq (by omega : child - start ≤ child - anchor), Option.bind_some]
      have both : child - anchor - (child - start) + (child - start) ≤ 2 ^ 64 - 1 := by omega
      generalize child - anchor - (child - start) = old at both
      generalize child - start = fresh at both
      have total : old * blockTime + fresh * activation.blockTime < 2 ^ 128 := by
        calc old * blockTime + fresh * activation.blockTime
            ≤ old * (2 ^ 64 - 1) + fresh * (2 ^ 64 - 1) :=
              Nat.add_le_add (Nat.mul_le_mul_left _ (by decide)) (Nat.mul_le_mul_left _ (by omega))
          _ = (old + fresh) * (2 ^ 64 - 1) := (Nat.add_mul ..).symm
          _ ≤ (2 ^ 64 - 1) * (2 ^ 64 - 1) := Nat.mul_le_mul_right _ both
          _ < 2 ^ 128 := by decide
      rw [mulInType_eq (by omega), Option.bind_some, mulInType_eq (by omega), Option.bind_some,
        addInType_eq total]

/-- Nor does one of the end height. -/
theorem endHeightInType_eq : developmentAllocationEndHeightInType schedule =
    some (developmentAllocationEndHeightWithSchedule schedule) := by
  unfold developmentAllocationEndHeightInType developmentAllocationEndHeightWithSchedule
  rcases schedule.v2 with _ | activation
  · rfl
  · have positive := activation.height_pos
    dsimp only
    split
    case isTrue => rfl
    case isFalse early =>
      have bound : activation.height ≤ 4730400 := Nat.le_of_not_lt early
      have legacy : (activation.height - 1) * blockTime ≤ developmentAllocationDurationSeconds := by
        change _ * 20 ≤ 94608000
        omega
      have quotient := Nat.div_le_self
        (developmentAllocationDurationSeconds - (activation.height - 1) * blockTime)
        activation.blockTime
      have short : developmentAllocationDurationSeconds = 94608000 := by decide
      rw [subInType_eq (by omega : 1 ≤ activation.height), Option.bind_eq_bind, Option.bind_some,
        mulInType_eq (by omega), Option.bind_some, subInType_eq legacy, Option.bind_some,
        addInType_eq (by omega)]

/-! ## Exactness -/

/-- Between any two heights `ideal_elapsed` is the sum of the intervals and stays in its types, it is
additive, and the end height of the development allocation is the last height within its duration. -/
theorem ideal_elapsed_exact (schedule : ForkSchedule) (words : schedule.IsWords) :
    (∀ anchor child, anchor < 2 ^ 64 → child < 2 ^ 64 →
      schedule.idealElapsedInType anchor child =
        some (∑ height ∈ Ioc anchor child, schedule.blockTime height)) ∧
    (∀ anchor middle child, anchor ≤ middle → middle ≤ child → child < 2 ^ 64 →
      schedule.idealElapsed anchor child =
        schedule.idealElapsed anchor middle + schedule.idealElapsed middle child) ∧
    developmentAllocationEndHeightInType schedule =
      some (developmentAllocationEndHeightWithSchedule schedule) ∧
    ∀ height, (schedule.idealElapsed 0 height ≤ developmentAllocationDurationSeconds ∧
        developmentAllocationDurationSeconds < schedule.idealElapsed 0 (height + 1)) ↔
      height = developmentAllocationEndHeightWithSchedule schedule := by
  refine ⟨fun anchor child _ small => ?_, fun anchor middle child first second _ => ?_,
    endHeightInType_eq schedule, fun height => ?_⟩
  · rw [idealElapsedInType_eq schedule words small, idealElapsed_eq]
    rfl
  · rw [idealElapsed_eq, idealElapsed_eq, idealElapsed_eq]
    exact (sum_Ioc_consecutive _ first second).symm
  · rw [idealElapsed_eq, idealElapsed_eq]
    obtain ⟨reached, passed⟩ := endHeight_last schedule
    constructor
    · rintro ⟨reached', passed'⟩
      exact last_within_unique schedule reached' passed' reached passed
    · rintro rfl
      exact ⟨reached, passed⟩

/-- A fork at height ten to half a minute. -/
theorem ideal_elapsed_exact_fork :
    ∃ schedule, ForkSchedule.new (some 5) (V2Activation.new 10 30) = some schedule ∧
      schedule.idealElapsedInType 8 12 =
        some (∑ height ∈ Ioc 8 12, schedule.blockTime height) := by
  refine ⟨_, rfl, ?_⟩
  exact (ideal_elapsed_exact _ (by
    intro activation member
    obtain rfl := Option.some.inj member
    exact ⟨by decide, by decide⟩)).1 8 12 (by decide) (by decide)

/-! ## The difficulty anchor -/

/-- The anchor of a tip lies within one epoch before it and is its own anchor, and no fork lies
between it and the child: all heights the target is computed from have the interval of the child. -/
theorem asert_anchor_uniform (schedule : ForkSchedule) (height : Nat) :
    let anchor := asertAnchorHeightWithSchedule height schedule
    anchor ≤ height ∧ height < anchor + epochLength ∧
      asertAnchorHeightWithSchedule anchor schedule = anchor ∧
      schedule.idealElapsed anchor (height + 1) =
        (height + 1 - anchor) * schedule.blockTime (height + 1) := by
  unfold asertAnchorHeightWithSchedule ForkSchedule.idealElapsed ForkSchedule.blockTime epochLength
  cases schedule.v2 with
  | none =>
    dsimp only
    exact ⟨by omega, by omega, by omega, rfl⟩
  | some activation =>
    have positive := activation.height_pos
    by_cases fork : activation.height - 1 ≤ height
    · simp only [if_pos fork, if_pos (show activation.height ≤ height + 1 by omega)]
      generalize startIs : max (height / 6 * 6) (activation.height - 1) = start
      have same : (if activation.height - 1 < start then start else activation.height - 1) =
          start := by
        split <;> omega
      rw [same, if_pos (by omega), Nat.sub_self, Nat.zero_mul, Nat.zero_add]
      exact ⟨by omega, by omega, by omega, rfl⟩
    · simp only [if_neg fork, if_neg (show ¬ activation.height ≤ height + 1 by omega)]
      rw [if_neg (by omega)]
      exact ⟨by omega, by omega, by omega, trivial⟩

end ParanoidChain
