import ParanoidChain.Consensus.Params

/-!
# The fee model

What a group of pages has to pay for its records and for the slots it adds. The state-growth part is
burned. Fees are 64-bit words whose operations saturate.
-/

namespace ParanoidChain

open Lib

/-- `FeeBreakdown`. -/
structure FeeBreakdown where
  base : Nat
  input : Nat
  output : Nat
  io : Nat
  stateGrowth : Nat
  requiredTotal : Nat
  burned : Nat
  deriving DecidableEq, Repr

/-- `1 << log_slots` in the given word, all ones when the shift leaves it. -/
def shiftedCapacity (bits logSlots : Nat) : Nat :=
  if logSlots < bits then 2 ^ logSlots else 2 ^ bits - 1

/-- Occupancy in basis points; the quotient is cut to 64 bits. -/
def occupancyBps (activeSlotCount logSlots : Nat) : Nat :=
  saturatingMul 128 activeSlotCount 10000 / max (shiftedCapacity 128 logSlots) 1 % 2 ^ 64

def pressureMultiplier (activeSlotCount logSlots : Nat) : Nat :=
  let bps := occupancyBps activeSlotCount logSlots
  if 9000 ≤ bps then 8 else if 7500 ≤ bps then 4 else if 5000 ≤ bps then 2 else 1

def stateGrowthFeePerSlot (activeSlotCount logSlots : Nat) : Nat :=
  saturatingMul 64 stateGrowthFeeBase (pressureMultiplier activeSlotCount logSlots)

def feeBreakdown (nInputs nOutputs activeSlotCount logSlots : Nat) : FeeBreakdown :=
  let netNewSlots := nOutputs - nInputs
  let base := minFeeBase
  let input := saturatingMul 64 feePerInput nInputs
  let output := saturatingMul 64 feePerOutput nOutputs
  let io := saturatingAdd 64 input output
  let stateGrowth := saturatingMul 64 (stateGrowthFeePerSlot activeSlotCount logSlots) netNewSlots
  let requiredTotal := saturatingAdd 64 (saturatingAdd 64 base io) stateGrowth
  { base, input, output, io, stateGrowth, requiredTotal, burned := stateGrowth }

end ParanoidChain
