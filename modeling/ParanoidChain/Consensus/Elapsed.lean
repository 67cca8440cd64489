import ParanoidChain.Consensus.Emission
import ParanoidChain.Lib.Checked

/-!
# Elapsed target time in machine integers

`ForkSchedule::ideal_elapsed` (`consensus/forks.rs`) and the end height of the development allocation
(`consensus/development_allocation.rs`) with every operation on its machine type: a subtraction of
`u64` that would go below zero and a sum or product of `u128` or `u64` that would leave its type give
nothing.
-/

namespace ParanoidChain

open Lib

/-- `ideal_elapsed`; `saturating_sub` is the truncated subtraction. -/
def ForkSchedule.idealElapsedInType (schedule : ForkSchedule) (anchor child : Nat) : Option Nat :=
  let count := child - anchor
  match schedule.v2 with
  | some activation =>
    if activation.height ≤ child then do
      let lastOld ← subInType activation.height 1
      let start := if lastOld < anchor then anchor else lastOld
      let newCount := child - start
      let oldCount ← subInType count newCount
      let oldTime ← mulInType 128 oldCount ParanoidChain.blockTime
      let newTime ← mulInType 128 newCount activation.blockTime
      addInType 128 oldTime newTime
    else mulInType 128 count ParanoidChain.blockTime
  | none => mulInType 128 count ParanoidChain.blockTime

/-- `development_allocation_end_height_with_schedule`. -/
def developmentAllocationEndHeightInType (schedule : ForkSchedule) : Option Nat :=
  match schedule.v2 with
  | none => some developmentAllocationEndHeight
  | some activation =>
    if developmentAllocationEndHeight < activation.height then some developmentAllocationEndHeight
    else do
      let legacyBlocks ← subInType activation.height 1
      let legacyTime ← mulInType 64 legacyBlocks blockTime
      let remaining ← subInType developmentAllocationDurationSeconds legacyTime
      addInType 64 legacyBlocks (remaining / activation.blockTime)

end ParanoidChain
