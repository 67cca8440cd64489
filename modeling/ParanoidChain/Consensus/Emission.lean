import Mathlib.Algebra.Ring.Nat
import Mathlib.Tactic.Common

/-!
# Fork schedule, block reward and development allocation

Which reward a height pays, and how that reward is divided between the miner and the two funds.
Heights, depths and amounts are natural numbers here; the one product that the code checks for
overflow, a fund's daily payout, is checked against the 64-bit range.

`V2Activation` and `ForkSchedule` have private fields in the code and are built only by their
constructors, so the conditions those check are fields of the structures.
-/

namespace ParanoidChain

/-- `BLOCK_TIME`: legacy target interval in seconds. -/
def blockTime : Nat := 20
def v2BlockTime : Nat := 30
/-- `V1_1_ACTIVATION_HEIGHT` of the release profile. -/
def v11ActivationHeight : Nat := 95125
def mainnetV2ActivationHeight : Nat := 210537
def logSlotsGenesis : Nat := 24
def logSlotsMax : Nat := 32
def micronoidPerNoid : Nat := 1000000
def baseRewardMicronoid : Nat := 50 * micronoidPerNoid
def floorRewardMicronoid : Nat := micronoidPerNoid

/-! ## Forks -/

inductive ProtocolVersion where
  | v1
  | v11
  | v2
  deriving DecidableEq, Repr

/-- The height at which v2 begins and its block interval; both are positive. -/
structure V2Activation where
  height : Nat
  blockTime : Nat
  height_pos : 0 < height
  blockTime_pos : 0 < blockTime
  deriving DecidableEq

/-- `V2Activation::new`. -/
def V2Activation.new (height blockTime : Nat) : Option V2Activation :=
  if h : height = 0 ∨ blockTime = 0 then none
  else some ⟨height, blockTime, by omega, by omega⟩

/-- Candidate-height rule selection; a v2 activation never precedes the v1.1 one. -/
structure ForkSchedule where
  v11 : Option Nat
  v2 : Option V2Activation
  ordered : ∀ second ∈ v2, ∃ first ∈ v11, first ≤ second.height

/-- `ForkSchedule::new`. -/
def ForkSchedule.new (v11 : Option Nat) (v2 : Option V2Activation) : Option ForkSchedule :=
  match v11, v2 with
  | some first, some second =>
    if h : first ≤ second.height then
      some ⟨some first, some second, by simpa using h⟩
    else none
  | v11, none => some ⟨v11, none, by simp⟩
  | none, some _ => none

namespace ForkSchedule

def version (schedule : ForkSchedule) (height : Nat) : ProtocolVersion :=
  if schedule.v2.any (·.height ≤ height) then .v2
  else if schedule.v11.any (· ≤ height) then .v11
  else .v1

/-- Target interval in seconds at one height. -/
def blockTime (schedule : ForkSchedule) (height : Nat) : Nat :=
  match schedule.v2 with
  | some activation =>
    if activation.height ≤ height then activation.blockTime else ParanoidChain.blockTime
  | none => ParanoidChain.blockTime

/-- Target elapsed seconds over `(anchor, child]`; the fork block's interval is a new-rule one. -/
def idealElapsed (schedule : ForkSchedule) (anchor child : Nat) : Nat :=
  let count := child - anchor
  match schedule.v2 with
  | some activation =>
    if activation.height ≤ child then
      let lastOld := activation.height - 1
      let start := if lastOld < anchor then anchor else lastOld
      let newCount := child - start
      (count - newCount) * ParanoidChain.blockTime + newCount * activation.blockTime
    else count * ParanoidChain.blockTime
  | none => count * ParanoidChain.blockTime

end ForkSchedule

/-- `ACTIVE_SCHEDULE` of the release profile. -/
def activeSchedule : ForkSchedule where
  v11 := some v11ActivationHeight
  v2 := some ⟨mainnetV2ActivationHeight, v2BlockTime, by decide, by decide⟩
  ordered := by decide

/-! ## Block reward -/

def v2RewardIntervalBlocks : Nat := 1051200

def v2RewardsMicronoid : Vector Nat 9 :=
  #v[16000000, 11300000, 8000000, 5650000, 4000000, 2830000, 2000000, 1410000, 1000000]

def v2BlockRewardAtElapsed (elapsedBlocks : Nat) : Nat :=
  let epoch := min (elapsedBlocks / v2RewardIntervalBlocks) 8
  v2RewardsMicronoid.get ⟨epoch, by omega⟩

/-- The legacy reward: one halving per state expansion, with a floor. A 64-bit shift by 64 or more
places counts as zero. -/
def blockReward (logSlots : Nat) : Nat :=
  let expansions := logSlots - logSlotsGenesis
  max (if expansions < 64 then baseRewardMicronoid >>> expansions else 0) floorRewardMicronoid

def blockRewardWithSchedule (height logSlots : Nat) (schedule : ForkSchedule) : Nat :=
  match schedule.v2 with
  | some activation =>
    if activation.height ≤ height then v2BlockRewardAtElapsed (height - activation.height)
    else blockReward logSlots
  | none => blockReward logSlots

/-! ## Development allocation -/

def targetBlocksPerDay : Nat := 24 * 60 * 60 / blockTime
def developmentAllocationEndHeight : Nat := targetBlocksPerDay * 365 * 3
def developmentAllocationDurationSeconds : Nat := 86400 * 365 * 3
def developmentShareDenominator : Nat := 20

structure DevelopmentAllocation where
  /-- The height is still inside the allocation period. -/
  active : Bool
  /-- The block must carry the two-output payout. -/
  payoutDue : Bool
  /-- Five percent of the reward of this block. -/
  shareEach : Nat
  /-- Exact amount of each payout output. -/
  payoutEach : Option Nat
  /-- Largest subsidy the primary coinbase may claim. -/
  minerSubsidy : Nat
  deriving DecidableEq, Repr

inductive DevelopmentAllocationError where
  | inexactRewardShare
  | payoutOverflow
  | inexactInterval
  deriving DecidableEq, Repr

/-- The split once the allocation period is over: everything to the miner. -/
def DevelopmentAllocation.inactive (subsidy : Nat) : DevelopmentAllocation :=
  { active := false, payoutDue := false, shareEach := 0, payoutEach := none, minerSubsidy := subsidy }

def developmentAllocationEndHeightWithSchedule (schedule : ForkSchedule) : Nat :=
  match schedule.v2 with
  | none => developmentAllocationEndHeight
  | some activation =>
    if developmentAllocationEndHeight < activation.height then developmentAllocationEndHeight
    else
      let legacyBlocks := activation.height - 1
      let remaining := developmentAllocationDurationSeconds - legacyBlocks * blockTime
      legacyBlocks + remaining / activation.blockTime

def developmentAllocationActive (height : Nat) : Bool :=
  decide (0 < height) && decide (height ≤ developmentAllocationEndHeight)

def developmentPayoutDue (height : Nat) : Bool :=
  developmentAllocationActive height && height % targetBlocksPerDay == 0

/-- Exact five-percent share of one subsidy. -/
def developmentShareEach (subsidy : Nat) : Except DevelopmentAllocationError Nat :=
  if subsidy % developmentShareDenominator ≠ 0 then .error .inexactRewardShare
  else .ok (subsidy / developmentShareDenominator)

/-- `share_each.checked_mul(count)` on 64-bit words. -/
def checkedPayout (shareEach count : Nat) : Except DevelopmentAllocationError Nat :=
  if shareEach * count < 2 ^ 64 then .ok (shareEach * count) else .error .payoutOverflow

/-- The legacy allocation of one child block. -/
def developmentAllocation (childHeight childLogSlots : Nat) :
    Except DevelopmentAllocationError DevelopmentAllocation := do
  let subsidy := blockReward childLogSlots
  if !developmentAllocationActive childHeight then
    return .inactive subsidy
  let shareEach ← developmentShareEach subsidy
  let payoutDue := developmentPayoutDue childHeight
  let payoutEach ← if payoutDue then some <$> checkedPayout shareEach targetBlocksPerDay
    else pure none
  return { active := true, payoutDue, shareEach, payoutEach, minerSubsidy := subsidy - 2 * shareEach }

/-- How many blocks a v2 height pays out for, if it pays at all. The activation block never pays;
afterwards every complete day pays, and the last eligible block pays the partial day. -/
def v2PayoutCount (activation : V2Activation) (endHeight height : Nat) : Option Nat :=
  let interval := 86400 / activation.blockTime
  let elapsed := height - (activation.height - 1)
  if height = activation.height then none
  else if elapsed % interval = 0 then some interval
  else if height = endHeight then some (elapsed % interval)
  else none

/-- The allocation under an explicit schedule. -/
def developmentAllocationWithSchedule (height logSlots : Nat) (schedule : ForkSchedule) :
    Except DevelopmentAllocationError DevelopmentAllocation :=
  match schedule.v2.filter (·.height ≤ height) with
  | none => developmentAllocation height logSlots
  | some activation => do
    if 86400 % activation.blockTime ≠ 0 then
      throw .inexactInterval
    let subsidy := blockRewardWithSchedule height logSlots schedule
    let endHeight := developmentAllocationEndHeightWithSchedule schedule
    if endHeight < height then
      return .inactive subsidy
    let shareEach ← developmentShareEach subsidy
    let count := v2PayoutCount activation endHeight height
    let payoutEach ← count.mapM (checkedPayout shareEach)
    return { active := true, payoutDue := count.isSome, shareEach, payoutEach,
             minerSubsidy := subsidy - 2 * shareEach }

end ParanoidChain
