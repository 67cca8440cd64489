import ParanoidChain.Consensus.Emission
import Mathlib.Algebra.BigOperators.Intervals
import Mathlib.Algebra.Order.BigOperators.Group.Finset
import Mathlib.Tactic.IntervalCases
import Mathlib.Tactic.Ring
import Mathlib.Tactic.Linarith

/-!
# Issuance stays within the reward schedule

The two funds are paid in lump sums computed from the reward of the paying block, so no single
height says that nothing extra is issued. The argument is amortised. `openBlocks` counts the blocks
accrued since the last payout, and its value times the current share, paid twice, is a potential:
each block adds at most one share to it (`accrual_step`), and a payout spends what had accrued.
Within one reward regime the share never grows, and the fork discards the open day, so the potential
never has to be revalued upwards.

The incomplete legacy day lost at the fork, and the first v2 block, which never pays, only make the
bound strict.
-/

namespace ParanoidChain

/-! ## Rewards -/

theorem blockReward_exact {logSlots : Nat} (low : 24 ≤ logSlots) (high : logSlots ≤ 32) :
    blockReward logSlots % 20 = 0 ∧ blockReward logSlots ≤ 50000000 := by
  have table : ∀ step : Fin 9, blockReward (24 + step) % 20 = 0 ∧
      blockReward (24 + step) ≤ 50000000 := by decide
  have split : logSlots = 24 + (logSlots - 24) := by omega
  rw [split]
  exact table ⟨logSlots - 24, by omega⟩

/-- An expansion never raises the legacy reward. -/
theorem blockReward_antitone {small large : Nat} (low : 24 ≤ small) (le : small ≤ large)
    (high : large ≤ 32) : blockReward large ≤ blockReward small := by
  have table : ∀ a b : Fin 9, a ≤ b → blockReward (24 + b) ≤ blockReward (24 + a) := by decide
  have splitSmall : small = 24 + (small - 24) := by omega
  have splitLarge : large = 24 + (large - 24) := by omega
  rw [splitSmall, splitLarge]
  exact table ⟨small - 24, by omega⟩ ⟨large - 24, by omega⟩ (by simp; omega)

theorem v2BlockReward_exact (elapsed : Nat) :
    v2BlockRewardAtElapsed elapsed % 20 = 0 ∧ v2BlockRewardAtElapsed elapsed ≤ 50000000 := by
  have table : ∀ epoch : Fin 9, v2RewardsMicronoid.get epoch % 20 = 0 ∧
      v2RewardsMicronoid.get epoch ≤ 50000000 := by decide
  exact table _

/-- The v2 reward never rises with height. -/
theorem v2BlockReward_antitone {early late : Nat} (le : early ≤ late) :
    v2BlockRewardAtElapsed late ≤ v2BlockRewardAtElapsed early := by
  have table : ∀ a b : Fin 9, a ≤ b →
      v2RewardsMicronoid.get b ≤ v2RewardsMicronoid.get a := by decide
  refine table _ _ (Fin.mk_le_mk.mpr ?_)
  exact min_le_min (Nat.div_le_div_right le) le_rfl

/-! ## The allocation in closed form -/

namespace ForkSchedule

variable (schedule : ForkSchedule)

/-- The v2 activation, once it governs `height`. -/
def governing (height : Nat) : Option V2Activation := schedule.v2.filter (·.height ≤ height)

/-- Whether `height` lies in the allocation period. -/
def allocationActive (height : Nat) : Bool :=
  match schedule.governing height with
  | none => developmentAllocationActive height
  | some _ => decide (height ≤ developmentAllocationEndHeightWithSchedule schedule)

/-- The number of blocks `height` pays each fund for, if it pays. -/
def payoutCount (height : Nat) : Option Nat :=
  match schedule.governing height with
  | none => if developmentPayoutDue height then some targetBlocksPerDay else none
  | some activation =>
    if developmentAllocationEndHeightWithSchedule schedule < height then none
    else v2PayoutCount activation (developmentAllocationEndHeightWithSchedule schedule) height

/-- Blocks accrued and still unpaid after `height`. -/
def openBlocks (height : Nat) : Nat :=
  match schedule.governing height with
  | none => if developmentAllocationActive height then height % targetBlocksPerDay else 0
  | some activation =>
    if height < developmentAllocationEndHeightWithSchedule schedule then
      (height - (activation.height - 1)) % (86400 / activation.blockTime)
    else 0

variable {schedule : ForkSchedule} {height : Nat}

theorem governing_eq_none :
    schedule.governing height = none ↔ ∀ activation ∈ schedule.v2, height < activation.height := by
  unfold governing
  cases schedule.v2 <;> simp [Option.filter]

variable {activation : V2Activation}

theorem governing_eq_some :
    schedule.governing height = some activation ↔
      schedule.v2 = some activation ∧ activation.height ≤ height := by
  unfold governing
  cases schedule.v2 with
  | none => simp
  | some other =>
    simp only [Option.filter_some, decide_eq_true_eq, Option.some.injEq]
    constructor
    · intro h
      split at h
      · cases h; exact ⟨rfl, by assumption⟩
      · cases h
    · rintro ⟨rfl, le⟩
      simp [le]

theorem reward_of_legacy (logSlots : Nat) (legacy : schedule.governing height = none) :
    blockRewardWithSchedule height logSlots schedule = blockReward logSlots := by
  unfold blockRewardWithSchedule
  cases h : schedule.v2 with
  | none => rfl
  | some activation =>
    have early : height < activation.height := governing_eq_none.mp legacy activation (by simp [h])
    simp only [if_neg (Nat.not_le.mpr early)]

theorem reward_of_v2 (logSlots : Nat) (governed : schedule.governing height = some activation) :
    blockRewardWithSchedule height logSlots schedule =
      v2BlockRewardAtElapsed (height - activation.height) := by
  obtain ⟨v2, le⟩ := governing_eq_some.mp governed
  simp only [blockRewardWithSchedule, v2, if_pos le]

/-- Every reward splits into exact twentieths, and is small enough for any daily total. -/
theorem reward_exact {logSlots : Nat} (height : Nat) (low : 24 ≤ logSlots)
    (high : logSlots ≤ 32) :
    blockRewardWithSchedule height logSlots schedule % 20 = 0 ∧
      blockRewardWithSchedule height logSlots schedule ≤ 50000000 := by
  cases governed : schedule.governing height with
  | none => rw [reward_of_legacy logSlots governed]; exact blockReward_exact low high
  | some activation => rw [reward_of_v2 logSlots governed]; exact v2BlockReward_exact _

/-- The allocation every height gets, as a function of the closed forms above. -/
def allocationOf (height logSlots : Nat) : DevelopmentAllocation :=
  let reward := blockRewardWithSchedule height logSlots schedule
  if schedule.allocationActive height then
    { active := true, payoutDue := (schedule.payoutCount height).isSome, shareEach := reward / 20,
      payoutEach := (schedule.payoutCount height).map (reward / 20 * ·),
      minerSubsidy := reward - 2 * (reward / 20) }
  else .inactive reward

/-- The v2 intervals divide a day, as the allocation rule demands. -/
def ExactIntervals : Prop := ∀ activation ∈ schedule.v2, 86400 % activation.blockTime = 0

theorem interval_pos (exact : schedule.ExactIntervals) (scheduled : schedule.v2 = some activation) :
    0 < 86400 / activation.blockTime := by
  have divides := Nat.dvd_of_mod_eq_zero (exact activation scheduled)
  exact Nat.div_pos (Nat.le_of_dvd (by decide) divides) activation.blockTime_pos

theorem v2PayoutCount_le {endHeight count : Nat} (interval : 0 < 86400 / activation.blockTime)
    (paid : v2PayoutCount activation endHeight height = some count) : count ≤ 86400 := by
  have day : 86400 / activation.blockTime ≤ 86400 := Nat.div_le_self _ _
  have partDay := Nat.mod_lt (height - (activation.height - 1)) interval
  simp only [v2PayoutCount] at paid
  split at paid
  · cases paid
  · split at paid
    · cases paid; exact day
    · split at paid
      · cases paid; omega
      · cases paid

theorem checkedPayout_ok {reward count : Nat} (small : reward ≤ 50000000) (day : count ≤ 86400) :
    checkedPayout (reward / 20) count = .ok (reward / 20 * count) := by
  have bound : reward / 20 * count ≤ 2500000 * 86400 := Nat.mul_le_mul (by omega) day
  unfold checkedPayout
  rw [if_pos (by omega)]

theorem shareEach_ok {reward : Nat} (divides : reward % 20 = 0) :
    developmentShareEach reward = .ok (reward / 20) := by
  simp [developmentShareEach, developmentShareDenominator, divides]

/-- The allocation succeeds at every height, with the closed form as its value. -/
theorem allocation_eq (exact : schedule.ExactIntervals) {logSlots : Nat} (height : Nat)
    (low : 24 ≤ logSlots) (high : logSlots ≤ 32) :
    developmentAllocationWithSchedule height logSlots schedule =
      .ok (schedule.allocationOf height logSlots) := by
  obtain ⟨divides, small⟩ := schedule.reward_exact height low high
  unfold developmentAllocationWithSchedule
  change (match schedule.governing height with | none => _ | some activation => _) = _
  cases governed : schedule.governing height with
  | none =>
    have legacy := reward_of_legacy logSlots governed
    rw [legacy] at divides small
    simp only [allocationOf, allocationActive, payoutCount, governed, legacy, developmentAllocation]
    by_cases active : developmentAllocationActive height = true
    · by_cases due : developmentPayoutDue height = true
      · simp [active, due, shareEach_ok divides,
          checkedPayout_ok small (show targetBlocksPerDay ≤ 86400 by decide),
          bind, Except.bind, pure, Except.pure, Functor.map, Except.map]
      · simp [active, due, shareEach_ok divides, bind, Except.bind, pure, Except.pure]
    · simp [active, pure, Except.pure]
  | some activation =>
    obtain ⟨scheduled, -⟩ := governing_eq_some.mp governed
    have whole : 86400 % activation.blockTime = 0 := exact activation scheduled
    simp only [allocationOf, allocationActive, payoutCount, governed]
    by_cases past : developmentAllocationEndHeightWithSchedule schedule < height
    · simp [past, whole, pure, Except.pure, Nat.not_le.mpr past]
    · cases count : v2PayoutCount activation
        (developmentAllocationEndHeightWithSchedule schedule) height with
      | none =>
        simp [past, whole, shareEach_ok divides, Nat.not_lt.mp past,
          pure, Except.pure, bind, Except.bind]
      | some blocks =>
        have day := v2PayoutCount_le (interval_pos exact scheduled) count
        simp [past, whole, shareEach_ok divides, checkedPayout_ok small day,
          Nat.not_lt.mp past, pure, Except.pure, bind, Except.bind, Functor.map, Except.map]

/-! ## Accrual -/

/-- Counting one block further either adds one to the remainder or completes a period. -/
theorem succ_mod_eq {period : Nat} (elapsed : Nat) (pos : 0 < period) :
    (elapsed + 1) % period = 0 ∧ elapsed % period + 1 = period ∨
      (elapsed + 1) % period = elapsed % period + 1 := by
  have below := Nat.mod_lt elapsed pos
  by_cases last : elapsed % period + 1 = period
  · left
    refine ⟨?_, last⟩
    rw [← Nat.mod_add_mod, last, Nat.mod_self]
  · right
    rw [← Nat.mod_add_mod, Nat.mod_eq_of_lt (by omega)]

/-- One legacy block: what it pays and leaves open is what was open before, plus itself. -/
theorem accrual_step_legacy (legacy : schedule.governing (height + 1) = none)
    (active : schedule.allocationActive (height + 1) = true) :
    (schedule.payoutCount (height + 1)).getD 0 + schedule.openBlocks (height + 1) ≤
      schedule.openBlocks height + 1 := by
  have before : schedule.governing height = none := by
    rw [governing_eq_none] at legacy ⊢
    intro activation scheduled
    have := legacy activation scheduled
    omega
  have inside : developmentAllocationActive (height + 1) = true := by
    simpa [allocationActive, legacy] using active
  have opened : schedule.openBlocks height = height % targetBlocksPerDay := by
    simp only [openBlocks, before]
    split
    · rfl
    · rename_i closed
      simp only [developmentAllocationActive, Bool.and_eq_true, decide_eq_true_eq] at inside closed
      have zero : height = 0 := by omega
      simp [zero]
  rw [opened]
  simp only [openBlocks, payoutCount, legacy, inside, developmentPayoutDue, if_true,
    Bool.true_and, beq_iff_eq]
  rcases succ_mod_eq height (show 0 < targetBlocksPerDay by decide) with ⟨day, last⟩ | more
  · simp [day, last]
  · simp [more]

/-- One v2 block after the activation block. -/
theorem accrual_step_v2 (exact : schedule.ExactIntervals)
    (governed : schedule.governing height = some activation)
    (active : schedule.allocationActive (height + 1) = true) :
    (schedule.payoutCount (height + 1)).getD 0 + schedule.openBlocks (height + 1) ≤
      schedule.openBlocks height + 1 := by
  obtain ⟨scheduled, started⟩ := governing_eq_some.mp governed
  have next : schedule.governing (height + 1) = some activation :=
    governing_eq_some.mpr ⟨scheduled, by omega⟩
  have within : height + 1 ≤ developmentAllocationEndHeightWithSchedule schedule := by
    simpa [allocationActive, next] using active
  have before : height < developmentAllocationEndHeightWithSchedule schedule := by omega
  have later : ¬ height + 1 = activation.height := by omega
  have elapsed : height + 1 - (activation.height - 1) = height - (activation.height - 1) + 1 := by
    omega
  simp only [openBlocks, payoutCount, governed, next, v2PayoutCount, if_neg later,
    if_neg (Nat.not_lt.mpr within), if_pos before, elapsed]
  rcases succ_mod_eq (height - (activation.height - 1)) (interval_pos exact scheduled) with
    ⟨day, last⟩ | more
  · simp [day, last]
  · simp only [more, Nat.add_one_ne_zero, if_false]
    by_cases final : height + 1 = developmentAllocationEndHeightWithSchedule schedule
    · simp [final]
    · have open' : height + 1 < developmentAllocationEndHeightWithSchedule schedule := by omega
      simp [final, open']

/-- The activation block pays nothing and opens a fresh day. -/
theorem accrual_step_fork (scheduled : schedule.v2 = some activation)
    (fork : height + 1 = activation.height) :
    (schedule.payoutCount (height + 1)).getD 0 + schedule.openBlocks (height + 1) ≤ 1 := by
  have next : schedule.governing (height + 1) = some activation :=
    governing_eq_some.mpr ⟨scheduled, by omega⟩
  have first : height + 1 - (activation.height - 1) = 1 := by omega
  have one : 1 % (86400 / activation.blockTime) ≤ 1 := Nat.mod_le _ _
  simp only [openBlocks, payoutCount, next, v2PayoutCount, if_pos fork, first, ite_self,
    Option.getD_none, Nat.zero_add]
  split <;> omega

/-- Within one regime the reward does not rise from one height to the next. -/
theorem reward_antitone {low high : Nat}
    (same : schedule.governing (height + 1) = schedule.governing height) (floor : 24 ≤ low)
    (le : low ≤ high) (ceiling : high ≤ 32) :
    blockRewardWithSchedule (height + 1) high schedule ≤
      blockRewardWithSchedule height low schedule := by
  cases governed : schedule.governing height with
  | none =>
    rw [reward_of_legacy _ governed, reward_of_legacy _ (same.trans governed)]
    exact blockReward_antitone floor le ceiling
  | some activation =>
    rw [reward_of_v2 _ governed, reward_of_v2 _ (same.trans governed)]
    exact v2BlockReward_antitone (by omega)

theorem openBlocks_zero (schedule : ForkSchedule) : schedule.openBlocks 0 = 0 := by
  have legacy : schedule.governing 0 = none :=
    governing_eq_none.mpr fun activation _ => activation.height_pos
  simp [openBlocks, legacy]

/-- One block of either regime, valued at its share. The open day of a regime is revalued only
downwards; across the fork, and at the first block, at most the block itself is open. -/
theorem accrual_step (exact : schedule.ExactIntervals) {low high : Nat}
    (floor : 0 < height → 24 ≤ low ∧ low ≤ high) (ceiling : high ≤ 32)
    (active : schedule.allocationActive (height + 1) = true) :
    ((schedule.payoutCount (height + 1)).getD 0 + schedule.openBlocks (height + 1)) *
        (blockRewardWithSchedule (height + 1) high schedule / 20) ≤
      schedule.openBlocks height * (blockRewardWithSchedule height low schedule / 20) +
        blockRewardWithSchedule (height + 1) high schedule / 20 := by
  have fresh (one : (schedule.payoutCount (height + 1)).getD 0 +
      schedule.openBlocks (height + 1) ≤ 1) : _ :=
    (Nat.mul_le_mul_right (blockRewardWithSchedule (height + 1) high schedule / 20) one).trans
      (show _ ≤ schedule.openBlocks height * (blockRewardWithSchedule height low schedule / 20) +
        blockRewardWithSchedule (height + 1) high schedule / 20 by omega)
  have kept (same : schedule.governing (height + 1) = schedule.governing height)
      (more : (schedule.payoutCount (height + 1)).getD 0 + schedule.openBlocks (height + 1) ≤
        schedule.openBlocks height + 1) :
      ((schedule.payoutCount (height + 1)).getD 0 + schedule.openBlocks (height + 1)) *
          (blockRewardWithSchedule (height + 1) high schedule / 20) ≤
        schedule.openBlocks height * (blockRewardWithSchedule height low schedule / 20) +
          blockRewardWithSchedule (height + 1) high schedule / 20 := by
    rcases Nat.eq_zero_or_pos height with zero | pos
    · exact fresh (by simpa [zero, openBlocks_zero] using more)
    · have shares := Nat.div_le_div_right (c := 20)
        (reward_antitone same (floor pos).1 (floor pos).2 ceiling)
      calc _ ≤ (schedule.openBlocks height + 1) *
            (blockRewardWithSchedule (height + 1) high schedule / 20) :=
            Nat.mul_le_mul_right _ more
        _ = schedule.openBlocks height *
              (blockRewardWithSchedule (height + 1) high schedule / 20) +
            blockRewardWithSchedule (height + 1) high schedule / 20 := by ring
        _ ≤ _ := Nat.add_le_add_right (Nat.mul_le_mul_left _ shares) _
  cases next : schedule.governing (height + 1) with
  | none =>
    have before : schedule.governing height = none :=
      governing_eq_none.mpr fun activation scheduled => by
        have := governing_eq_none.mp next activation scheduled
        omega
    exact kept (next.trans before.symm) (accrual_step_legacy next active)
  | some activation =>
    obtain ⟨scheduled, started⟩ := governing_eq_some.mp next
    by_cases fork : height + 1 = activation.height
    · exact fresh (accrual_step_fork scheduled fork)
    · have governed : schedule.governing height = some activation :=
        governing_eq_some.mpr ⟨scheduled, by omega⟩
      exact kept (next.trans governed.symm) (accrual_step_v2 exact governed active)

end ForkSchedule

/-! ## The bound -/

/-- What one block may issue: the miner's subsidy and two equal payouts. -/
def DevelopmentAllocation.issued (allocation : DevelopmentAllocation) : Nat :=
  allocation.minerSubsidy + 2 * allocation.payoutEach.getD 0

/-- Payments covered at every step by what is earned and by the change of a potential that starts at
zero are covered in total. -/
theorem sum_le_of_potential (paid earned : Nat → Nat) {potential : Nat → Nat}
    (start : potential 0 = 0) :
    ∀ (last : Nat), (∀ step < last, paid (step + 1) + potential (step + 1) ≤
        potential step + earned (step + 1)) →
      ∑ step ∈ Finset.Icc 1 last, paid step + potential last ≤
        ∑ step ∈ Finset.Icc 1 last, earned step
  | 0, _ => by simp [start]
  | last + 1, covers => by
    have before := sum_le_of_potential paid earned start last fun step below => covers step (by omega)
    have now := covers last (by omega)
    rw [Finset.sum_Icc_succ_top (by omega), Finset.sum_Icc_succ_top (by omega)]
    omega

namespace ForkSchedule

/-- The open day, valued at the share of the height it stands at and owed to two funds. -/
def owed (schedule : ForkSchedule) (logSlots : Nat → Nat) (height : Nat) : Nat :=
  2 * (schedule.openBlocks height *
    (blockRewardWithSchedule height (logSlots height) schedule / 20))

/-- One height: what it issues and leaves owed was owed before or is its own reward. -/
theorem issued_step {schedule : ForkSchedule} (exact : schedule.ExactIntervals)
    {logSlots : Nat → Nat} {height : Nat}
    (depth : 24 ≤ logSlots (height + 1) ∧ logSlots (height + 1) ≤ 32)
    (grows : 0 < height → 24 ≤ logSlots height ∧ logSlots height ≤ logSlots (height + 1)) :
    (schedule.allocationOf (height + 1) (logSlots (height + 1))).issued +
        schedule.owed logSlots (height + 1) ≤
      schedule.owed logSlots height +
        blockRewardWithSchedule (height + 1) (logSlots (height + 1)) schedule := by
  obtain ⟨divides, -⟩ := schedule.reward_exact (height + 1) depth.1 depth.2
  by_cases active : schedule.allocationActive (height + 1) = true
  · have step := accrual_step exact grows depth.2 active
    rw [Nat.add_mul] at step
    have paid (share : Nat) : ((schedule.payoutCount (height + 1)).map (share * ·)).getD 0 =
        (schedule.payoutCount (height + 1)).getD 0 * share := by
      cases schedule.payoutCount (height + 1) <;> simp [Nat.mul_comm]
    simp only [DevelopmentAllocation.issued, allocationOf, active, if_true, owed, paid]
    omega
  · have closed : schedule.openBlocks (height + 1) = 0 := by
      cases governed : schedule.governing (height + 1) with
      | none =>
        simp only [allocationActive, governed] at active
        simp only [openBlocks, governed, if_neg active]
      | some activation =>
        simp only [allocationActive, governed, decide_eq_true_eq] at active
        simp only [openBlocks, governed]
        rw [if_neg (by omega)]
    simp [DevelopmentAllocation.issued, allocationOf, active, DevelopmentAllocation.inactive,
      owed, closed]

/-- **Issuance never exceeds the reward schedule.** Along any growth of the slot domain between its
genesis and its maximal depth, the allocation succeeds at every height, an active height splits its
reward exactly, and up to every height the subsidies and payouts together stay within the rewards. -/
theorem issuance_le_rewards (schedule : ForkSchedule)
    (exact : ∀ activation ∈ schedule.v2, activation.blockTime ∣ 86400)
    (last : Nat) (logSlots : Nat → Nat)
    (depth : ∀ height ∈ Finset.Icc 1 last, 24 ≤ logSlots height ∧ logSlots height ≤ 32)
    (grows : ∀ early ∈ Finset.Icc 1 last, ∀ late ∈ Finset.Icc 1 last, early ≤ late →
      logSlots early ≤ logSlots late) :
    ∃ allocation : Nat → DevelopmentAllocation,
      (∀ height ∈ Finset.Icc 1 last,
        developmentAllocationWithSchedule height (logSlots height) schedule =
          .ok (allocation height)) ∧
      (∀ height ∈ Finset.Icc 1 last, (allocation height).active = true →
        (allocation height).minerSubsidy + 2 * (allocation height).shareEach =
          blockRewardWithSchedule height (logSlots height) schedule) ∧
      ∑ height ∈ Finset.Icc 1 last, ((allocation height).minerSubsidy +
          2 * (allocation height).payoutEach.getD 0) ≤
        ∑ height ∈ Finset.Icc 1 last,
          blockRewardWithSchedule height (logSlots height) schedule := by
  have whole : schedule.ExactIntervals := fun activation scheduled =>
    Nat.mod_eq_zero_of_dvd (exact activation scheduled)
  refine ⟨fun height => schedule.allocationOf height (logSlots height), ?_, ?_, ?_⟩
  · intro height within
    exact allocation_eq whole height (depth height within).1 (depth height within).2
  · intro height within active
    obtain ⟨divides, -⟩ := schedule.reward_exact height (depth height within).1 (depth height within).2
    by_cases inside : schedule.allocationActive height = true
    · simp only [allocationOf, inside, if_true]
      omega
    · simp [allocationOf, inside, DevelopmentAllocation.inactive] at active
  · have start : schedule.owed logSlots 0 = 0 := by simp [owed, openBlocks_zero]
    have total := sum_le_of_potential
      (fun height => (schedule.allocationOf height (logSlots height)).issued)
      (fun height => blockRewardWithSchedule height (logSlots height) schedule)
      start last fun height below => by
        have now : height + 1 ∈ Finset.Icc 1 last := Finset.mem_Icc.mpr ⟨by omega, by omega⟩
        refine issued_step whole (depth _ now) fun pos => ?_
        have before : height ∈ Finset.Icc 1 last := Finset.mem_Icc.mpr ⟨pos, by omega⟩
        exact ⟨(depth _ before).1, grows _ before _ now (by omega)⟩
    exact (Nat.le_add_right _ _).trans total

/-- The release schedule over its first two days at genesis depth. -/
theorem issuance_le_rewards_release :
    ∑ height ∈ Finset.Icc 1 8640, blockRewardWithSchedule height 24 activeSchedule ≥
      ∑ height ∈ Finset.Icc 1 8640,
        (activeSchedule.allocationOf height 24).issued := by
  obtain ⟨allocation, ok, -, bound⟩ := issuance_le_rewards activeSchedule (by decide) 8640
    (fun _ => 24) (fun _ _ => by decide) (fun _ _ _ _ _ => le_rfl)
  refine (Finset.sum_congr rfl fun height within => ?_).trans_le bound
  have same : Except.ok (allocation height) =
      (.ok (activeSchedule.allocationOf height 24) : Except DevelopmentAllocationError _) :=
    (ok height within).symm.trans (allocation_eq
      (show ∀ activation ∈ activeSchedule.v2, 86400 % activation.blockTime = 0 by decide)
      height (by decide) (by decide))
  rw [← Except.ok.inj same]
  rfl

end ForkSchedule

end ParanoidChain
