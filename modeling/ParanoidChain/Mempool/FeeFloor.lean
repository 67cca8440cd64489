import ParanoidChain.Consensus.Params
import Mathlib.Data.List.Sort

/-!
# The dynamic fee floor

`noid_mempool/src/floor.rs`. Counters and limits are `usize`, widened to `u128` before they are
multiplied. The ring buffer is a list, oldest fee first.
-/

namespace ParanoidChain

open Lib

/-- `FeeFloor`. -/
structure FeeFloor where
  recent : List U64
  capacity : Nat
  current : Nat
  /-- Absent under the legacy policy, else whether the pressure latch is on. -/
  pressureActive : Option Bool
  deriving DecidableEq, Repr

/-- `median_u64`: the upper median. -/
def medianU64 (values : List U64) : Nat :=
  ((values.map BitVec.toNat).insertionSort (· ≤ ·)).getD (values.length / 2) 0

namespace FeeFloor

def new (windowSize : Nat) : FeeFloor where
  recent := []
  capacity := max windowSize 1
  current := minFeeBase
  pressureActive := none

/-- `compute`: nine tenths of the median, and never below the base. -/
def compute (recent : List U64) : Nat :=
  if recent.isEmpty then minFeeBase
  else max (saturatingMul 64 (medianU64 recent) 9 / 10) minFeeBase

def record (floor : FeeFloor) (fee : U64) : FeeFloor :=
  let kept := if floor.capacity ≤ floor.recent.length then floor.recent.drop 1 else floor.recent
  { floor with recent := kept ++ [fee], current := compute (kept ++ [fee]) }

/-- `current()`: the floor in force. -/
def floorNow (floor : FeeFloor) : Nat :=
  if floor.pressureActive = some false then minFeeBase else floor.current

def reset (floor : FeeFloor) : FeeFloor :=
  { floor with
    recent := []
    current := minFeeBase
    pressureActive := floor.pressureActive.map fun _ => false }

/-- A `usize` as a `u128`, times a small constant. -/
def widened (word : U64) (factor : Nat) : U128 := word.setWidth 128 * BitVec.ofNat 128 factor

/-- `update_pressure`. -/
def updatePressure (floor : FeeFloor) (v11Active : Bool) (count maxCount bytes maxBytes : U64) :
    FeeFloor :=
  if v11Active then
    let floor := { floor with pressureActive := some (floor.pressureActive.getD false) }
    if count = 0 ∨
        widened count 2 < maxCount.setWidth 128 ∧ widened bytes 2 < maxBytes.setWidth 128 then
      floor.reset
    else if widened maxCount 4 ≤ widened count 5 ∨ widened maxBytes 4 ≤ widened bytes 5 then
      { floor with pressureActive := some true }
    else floor
  else
    let floor := { floor with pressureActive := none }
    if count = 0 then floor.reset else floor

/-- A call on the floor. -/
inductive Call where
  | record (fee : U64)
  | reset
  | updatePressure (v11Active : Bool) (count maxCount bytes maxBytes : U64)
  deriving DecidableEq, Repr

def call (floor : FeeFloor) : Call → FeeFloor
  | .record fee => floor.record fee
  | .reset => floor.reset
  | .updatePressure v11Active count maxCount bytes maxBytes =>
    floor.updatePressure v11Active count maxCount bytes maxBytes

/-- The floor after a history of calls. -/
def after (windowSize : Nat) (calls : List Call) : FeeFloor := calls.foldl call (new windowSize)

end FeeFloor

end ParanoidChain
