import ParanoidChain.Consensus.Checks
import ParanoidChain.Consensus.Difficulty
import ParanoidChain.Consensus.Fees
import Mathlib.Data.List.Sort

/-!
# Header checks against the parent

The linkage, difficulty, time, work and slot-depth rules of a child header. The caller provides the
timestamps, the finalized occupancy window and the difficulty anchor.
-/

namespace ParanoidChain

open Lib

/-- `median_time_past`: the upper median of the last eleven timestamps. -/
def medianTimePast (prevTimestamps : List U64) : Nat :=
  let count := min prevTimestamps.length medianTimeBlocks
  let recent := (prevTimestamps.drop (prevTimestamps.length - count)).map BitVec.toNat
  (recent.insertionSort (· ≤ ·)).getD (count / 2) 0

/-- `validate_median_time_past`. -/
def validateMedianTimePast (blockTs : U64) (prevTimestamps : List U64) :
    Except ConsensusError Unit :=
  reject (blockTs.toNat ≤ medianTimePast prevTimestamps) .badTimestamp

/-- `finalized_expansion_window`. -/
def finalizedExpansionWindow (parentHeight : Nat) : Option (Nat × Nat) :=
  if consensusFinalityDepth + (expansionWindow - 1) ≤ parentHeight then
    some (parentHeight - consensusFinalityDepth - (expansionWindow - 1),
      parentHeight - consensusFinalityDepth)
  else none

/-- `expected_child_log_slots`: one level deeper when most of a full finalized window is three
quarters occupied. -/
def expectedChildLogSlots (parentHeight parentLogSlots : Nat)
    (finalizedActiveCounts : List U64) : Nat :=
  if (finalizedExpansionWindow parentHeight).isNone then parentLogSlots
  else if finalizedActiveCounts.length ≠ expansionWindow then parentLogSlots
  else
    let prevCapacity := shiftedCapacity 64 parentLogSlots
    let thresholdScaled := saturatingMul 64 prevCapacity expandNum
    let atOrAbove := finalizedActiveCounts.countP fun active =>
      thresholdScaled ≤ saturatingMul 64 active.toNat expandDenom
    if expansionWindow / 2 < atOrAbove then
      min (saturatingAdd 32 parentLogSlots 1) logSlotsMax
    else parentLogSlots

/-- `asert_anchor_height_with_schedule`: the last epoch boundary, or the block before the second
fork while no boundary follows it. -/
def asertAnchorHeightWithSchedule (currentHeight : Nat) (schedule : ForkSchedule) : Nat :=
  let regular := currentHeight / epochLength * epochLength
  match schedule.v2 with
  | some activation =>
    if activation.height - 1 ≤ currentHeight then max regular (activation.height - 1) else regular
  | none => regular

/-- `tx_epoch_anchor_height_for_child`. -/
def txEpochAnchorHeightForChild (childHeight : Nat) : Nat :=
  if childHeight = 0 then 0 else (childHeight - 1) / txEpochBlocks * txEpochBlocks

/-- `AnchorInfo`. -/
structure AnchorInfo where
  anchorHeight : U64
  anchorTimestamp : U64
  anchorTarget : Digest
  deriving DecidableEq, Repr

/-- The admission-time rules, which a historical check has no clock for. -/
def validateLocalTime (header parent : BlockHeader) (localTime : U64) :
    Except ConsensusError Unit := do
  reject (parent.height = 0 ∧ localTime < parent.timestamp) .badTimestamp
  reject (saturatingAdd 64 localTime.toNat maxFutureDrift < header.timestamp.toNat) .badTimestamp

/-- The comparison of `validate_pow`. -/
def meetsTarget (hashes : ChainHashes) (header : BlockHeader) : Bool :=
  decide (hashes.powDigest header < header.difficultyTarget)

/-- `validate_header_inner`. The height of the child is the wrapping successor of a release
build. -/
def validateHeaderInner (hashes : ChainHashes) (header parent : BlockHeader)
    (expectedParentHash : Digest) (prevTimestamps finalizedActiveCounts : List U64)
    (localTime : Option U64) (anchor : AnchorInfo) (checkPow : Bool) (schedule : ForkSchedule) :
    Except ConsensusError Unit := do
  reject (header.prevBlockHash ≠ expectedParentHash) .badParentHash
  reject (header.height ≠ parent.height + 1) .badHeight
  let expectedTarget := nextTargetWithSchedule anchor.anchorHeight.toNat
    anchor.anchorTimestamp.toNat anchor.anchorTarget header.height.toNat parent.timestamp.toNat
    header.timestamp.toNat schedule
  reject (header.difficultyTarget ≠ expectedTarget) .badDifficultyTarget
  reject (header.timestamp.toNat ≤ medianTimePast prevTimestamps) .badTimestamp
  forM localTime.toList (validateLocalTime header parent)
  reject (checkPow = true ∧ meetsTarget hashes header = false) .invalidPoW
  reject (header.logSlots.toNat ≠
      expectedChildLogSlots parent.height.toNat parent.logSlots.toNat finalizedActiveCounts)
    .badLogSlotsExpansion

/-- `validate_header`: the live check under the active schedule. -/
def validateHeader (hashes : ChainHashes) (header parent : BlockHeader)
    (prevTimestamps finalizedActiveCounts : List U64) (localTime : U64) (anchor : AnchorInfo) :
    Except ConsensusError Unit :=
  validateHeaderInner hashes header parent (hashes.blockId parent) prevTimestamps
    finalizedActiveCounts (some localTime) anchor true activeSchedule

end ParanoidChain
