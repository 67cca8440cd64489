import ParanoidChain.Consensus.Params
import ParanoidChain.Lib.Limbs

/-!
# Difficulty targets

The ASERT rule in fixed point, before and after the second fork. Targets are 256-bit words; the
product with the fractional factor is a list of five 64-bit limbs, whose shifts drop what leaves
them. The work of a block is in `Consensus/Work`.
-/

namespace ParanoidChain

open Lib

/-- `legacy_fractional_factor`: the rule of the first release, with its integer divisions. -/
def legacyFractionalFactor (frac : Nat) : Nat :=
  65536 + (195766423245049 * frac + 971821376 * frac * frac / 65536 +
    5127 * (frac / 65536) * (frac / 65536) * frac + 2 ^ 47) / 2 ^ 48

def bchFractionalFactor (frac : Nat) : Nat :=
  65536 + (195766423245049 * frac + 971821376 * frac * frac + 5127 * frac * frac * frac +
    2 ^ 47) / 2 ^ 48

def fractionalFactorAtHeight (frac height : Nat) (activationHeight : Option Nat) : Nat :=
  if activationHeight.any (· ≤ height) then bchFractionalFactor frac
  else legacyFractionalFactor frac

/-- `i64::MIN` and `i64::MAX` as the bounds of a clamp. -/
def clampI64 (value : Int) : Int := max (-(2 ^ 63)) (min value (2 ^ 63 - 1))

/-- The saturating result of an `i128` operation. -/
def clampI128 (value : Int) : Int := max (-(2 ^ 127)) (min value (2 ^ 127 - 1))

/-! ## Limbs -/

def bytesToLimbs (bytes : Digest) : List U64 :=
  [bytes.extractLsb' 0 64, bytes.extractLsb' 64 64, bytes.extractLsb' 128 64,
    bytes.extractLsb' 192 64]

/-- `limbs_to_bytes`, of the low four limbs. -/
def limbsToBytes (limbs : List U64) : Digest := BitVec.ofNat 256 (Limbs.value (limbs.take 4))

def mulLimbsU64 (limbs : List U64) (factor : U64) : List U64 := Limbs.mulWord factor 0 limbs

/-- `shl320`: whole words first, then the bits. -/
def shl320 (limbs : List U64) (count : Nat) : List U64 :=
  if count = 0 then limbs
  else
    let wordShift := min (count / 64) 5
    let bitShift := count % 64
    let out := List.replicate wordShift 0 ++ limbs.take (5 - wordShift)
    if 0 < bitShift then Limbs.shiftLeftBits bitShift 0 out else out

def shr320 (limbs : List U64) (count : Nat) : List U64 :=
  if count = 0 then limbs
  else
    let wordShift := min (count / 64) 5
    let bitShift := count % 64
    let out := limbs.drop wordShift ++ List.replicate wordShift 0
    if 0 < bitShift then (Limbs.shiftRightBits bitShift 0 out.reverse).reverse else out

def shiftWide (limbs : List U64) (net : Int) : List U64 :=
  if 0 ≤ net then shl320 limbs (min net.toNat 319) else shr320 limbs (min (-net).toNat 319)

/-- `clamp`. -/
def clampTarget (result : Digest) (overflowWord : U64) : Digest :=
  if overflowWord ≠ 0 ∨ maxTarget < result then maxTarget
  else if result = 0 ∨ result < minTarget then minTarget
  else result

/-! ## The rule -/

/-- `target_from_exponent`, with the difficulty floor of a release build. -/
def targetFromExponent (anchorTarget : Digest) (height : Nat) (activationHeight : Option Nat)
    (exponent : Int) : Digest :=
  let shifts := exponent / 65536
  let frac := (exponent - shifts * 65536).toNat
  let factor := fractionalFactorAtHeight frac height activationHeight
  let wide := mulLimbsU64 (bytesToLimbs anchorTarget) (BitVec.ofNat 64 factor)
  let net := shifts - 16
  if 46 ≤ net then genesisTarget
  else if net ≤ -320 then minTarget
  else
    let wide := shiftWide wide net
    if 0 < net ∧ wide = List.replicate 5 0 then genesisTarget
    else
      let clamped := clampTarget (limbsToBytes wide) (wide.getD 4 0)
      if genesisTarget < clamped then genesisTarget else clamped

/-- `next_target_with_activation`: the rule before the second fork, on the child's own time. -/
def nextTargetWithActivation (anchorHeight anchorTimestamp : Nat) (anchorTarget : Digest)
    (height timestamp : Nat) (activationHeight : Option Nat) : Digest :=
  let ideal := (BitVec.ofNat 64 (saturatingMul 64 (height - anchorHeight) blockTime)).toInt
  let actual : Int := ((min (timestamp - anchorTimestamp) (2 ^ 63 - 1) : Nat) : Int)
  let rawExp := ((actual - ideal) * 65536).tdiv (epochLength * blockTime)
  targetFromExponent anchorTarget height activationHeight (clampI64 rawExp)

/-- `next_target_with_schedule`: from the second fork on, the parent's time counts. -/
def nextTargetWithSchedule (anchorHeight anchorTimestamp : Nat) (anchorTarget : Digest)
    (height parentTimestamp timestamp : Nat) (schedule : ForkSchedule) : Digest :=
  match schedule.v2.filter (·.height ≤ height) with
  | none => nextTargetWithActivation anchorHeight anchorTimestamp anchorTarget height timestamp
      schedule.v11
  | some activation =>
    let actual : Int := ((min (parentTimestamp - anchorTimestamp) (2 ^ 63 - 1) : Nat) : Int)
    let elapsed := schedule.idealElapsed anchorHeight (height - 1)
    let ideal : Int := ((min elapsed (2 ^ 127 - 1) : Nat) : Int)
    let halflife : Int := epochLength * activation.blockTime
    let exponent := (clampI128 (clampI128 (actual - ideal) * 65536)).tdiv halflife
    targetFromExponent anchorTarget height schedule.v11 (clampI64 exponent)

end ParanoidChain
