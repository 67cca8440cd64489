import ParanoidChain.Consensus.Difficulty
import Mathlib.Algebra.Order.Field.Power
import Mathlib.Algebra.Order.Floor.Semifield
import Mathlib.Data.Rat.Floor
import Mathlib.Tactic.Positivity

/-!
# How exact the difficulty rule is

The limb code computes `⌊A · factor · 2^net⌋` without losing a bit, for every anchor target between
the two bounds. One shortcut is wrong: a net shift of 46 or more answers with the easiest target, as
if every anchor were near `2^256`. For a hard anchor the exact target may still be below the easiest
one, and then the rule jumps to it.
-/

namespace ParanoidChain

open Lib

/-! ## Limb functions -/

theorem value_bytesToLimbs (bytes : Digest) : Limbs.value (bytesToLimbs bytes) = bytes.toNat := by
  have := bytes.isLt
  simp only [bytesToLimbs, Limbs.value, BitVec.extractLsb'_toNat, Nat.shiftRight_eq_div_pow]
  omega

variable {limbs : List U64}

section

variable (five : limbs.length = 5)
include five

/-- The shift to the left, cut at 320 bits. -/
theorem value_shl320 {count : Nat} (few : count < 320) :
    Limbs.value (shl320 limbs count) = Limbs.value limbs * 2 ^ count % 2 ^ 320 := by
  have bound := Limbs.value_lt limbs
  rw [five] at bound
  unfold shl320
  split
  case isTrue none =>
    rw [none, Nat.pow_zero, Nat.mul_one, Nat.mod_eq_of_lt bound]
  case isFalse =>
    have words : min (count / 64) 5 = count / 64 := by omega
    have split := Nat.mod_add_div count 64
    simp only [words]
    have size : (List.replicate (count / 64) (0 : U64) ++ limbs.take (5 - count / 64)).length = 5 := by
      rw [List.length_append, List.length_replicate, List.length_take_of_le (by omega)]
      omega
    -- the words move by a power of `2^64`, and what is cut off lies above the five limbs
    have moved : Limbs.value (List.replicate (count / 64) (0 : U64) ++ limbs.take (5 - count / 64)) =
        Limbs.value limbs * 2 ^ (64 * (count / 64)) % 2 ^ 320 := by
      have power : 2 ^ 320 = 2 ^ (64 * (5 - count / 64)) * 2 ^ (64 * (count / 64)) := by
        rw [← Nat.pow_add]
        congr 1
        omega
      rw [Limbs.value_append, Limbs.value_zeros, Nat.zero_add, List.length_replicate,
        Limbs.value_take (by omega), power, Nat.mul_mod_mul_right, Nat.mul_comm]
    split
    case isTrue bits =>
      rw [Limbs.value_shiftLeftBits (by omega) (by simp), size, moved]
      rw [show (0 : U64).toNat = 0 from rfl, Nat.add_zero, Nat.mod_mul_mod, Nat.mul_assoc,
        ← Nat.pow_add, Nat.add_comm, split]
    case isFalse whole =>
      rw [moved]
      congr 3
      omega

theorem length_shl320 (count : Nat) :
    (shl320 limbs count).length = 5 := by
  unfold shl320
  split
  · exact five
  · dsimp only
    split <;> simp [five]

theorem value_shr320 {count : Nat} (few : count < 320) :
    Limbs.value (shr320 limbs count) = Limbs.value limbs / 2 ^ count := by
  unfold shr320
  split
  case isTrue none => simp [none]
  case isFalse =>
    have words : min (count / 64) 5 = count / 64 := by omega
    have split := Nat.mod_add_div count 64
    simp only [words]
    have moved : Limbs.value (limbs.drop (count / 64) ++ List.replicate (count / 64) (0 : U64)) =
        Limbs.value limbs / 2 ^ (64 * (count / 64)) := by
      rw [Limbs.value_append, Limbs.value_zeros, Nat.mul_zero, Nat.add_zero,
        Limbs.value_drop (by omega)]
    split
    case isTrue bits =>
      rw [Limbs.value_shiftRightBits (by omega) (Nat.two_pow_pos _) (by simp), List.reverse_reverse,
        moved, Nat.zero_mul, Nat.zero_add, Nat.div_div_eq_div_mul, ← Nat.pow_add, Nat.add_comm, split]
    case isFalse whole =>
      rw [moved]
      congr 2
      omega

theorem length_shr320 (count : Nat) :
    (shr320 limbs count).length = 5 := by
  unfold shr320
  split
  · exact five
  · dsimp only
    split <;> simp [five]

theorem length_shiftWide (net : Int) :
    (shiftWide limbs net).length = 5 := by
  unfold shiftWide
  split
  · exact length_shl320 five _
  · exact length_shr320 five _

/-- Five limbs are their low 256 bits and the overflow word. -/
theorem value_five :
    Limbs.value limbs = (limbsToBytes limbs).toNat + 2 ^ 256 * (limbs.getD 4 0).toNat := by
  match limbs, five with
  | [first, second, third, fourth, fifth], _ =>
    have := first.isLt
    have := second.isLt
    have := third.isLt
    have := fourth.isLt
    simp only [limbsToBytes, Limbs.value, List.take, BitVec.toNat_ofNat, List.getD_cons_succ,
      List.getD_cons_zero]
    omega

/-- The two clamps together. -/
theorem clamped_eq :
    (if genesisTarget < clampTarget (limbsToBytes limbs) (limbs.getD 4 0) then genesisTarget
      else clampTarget (limbsToBytes limbs) (limbs.getD 4 0)).toNat =
      max minTarget.toNat (min (Limbs.value limbs) genesisTarget.toNat) := by
  have low : minTarget.toNat = 1 := by decide
  have high : genesisTarget.toNat = 2 ^ 238 := by decide
  have top : maxTarget.toNat = 2 ^ 256 - 1 := by decide
  have parts := value_five five
  have bound := (limbsToBytes limbs).isLt
  have none : limbs.getD 4 0 = 0 ↔ (limbs.getD 4 0).toNat = 0 := by
    rw [← BitVec.toNat_inj]
    rfl
  have zero : limbsToBytes limbs = 0 ↔ (limbsToBytes limbs).toNat = 0 := by
    rw [← BitVec.toNat_inj]
    rfl
  unfold clampTarget
  simp only [BitVec.lt_def, ne_eq, none, zero, low, high, top]
  split_ifs <;> simp only [low, high, top] at * <;> omega

end

/-! ## The fractional factor -/

theorem factor_bounds {frac : Nat} (small : frac < 65536) (height : Nat)
    (activationHeight : Option Nat) :
    65536 ≤ fractionalFactorAtHeight frac height activationHeight ∧
      fractionalFactorAtHeight frac height activationHeight < 2 ^ 18 := by
  have square : frac * frac ≤ 65535 * 65535 := Nat.mul_le_mul (by omega) (by omega)
  have cube : frac * frac * frac ≤ 65535 * 65535 * 65535 := Nat.mul_le_mul square (by omega)
  have none : frac / 65536 = 0 := Nat.div_eq_of_lt small
  have quadratic : 971821376 * frac * frac = 971821376 * (frac * frac) := by ring
  have cubic : 5127 * frac * frac * frac = 5127 * (frac * frac * frac) := by ring
  unfold fractionalFactorAtHeight bchFractionalFactor legacyFractionalFactor
  split
  · rw [quadratic, cubic]
    omega
  · rw [quadratic, none]
    omega

/-! ## The exact rule -/

/-- The shift that is left once the factor's own `2^16` is taken off. -/
def netShift (exponent : Int) : Int := exponent / 65536 - 16

/-- The anchor target times the factor of the exponent's fraction. -/
def wideTarget (anchorTarget : Digest) (height : Nat) (activationHeight : Option Nat)
    (exponent : Int) : Nat :=
  anchorTarget.toNat * fractionalFactorAtHeight (exponent % 65536).toNat height activationHeight

/-- `⌊A · factor · 2^(shifts − 16)⌋`. -/
def scaledTarget (anchorTarget : Digest) (height : Nat) (activationHeight : Option Nat)
    (exponent : Int) : Nat :=
  ⌊(wideTarget anchorTarget height activationHeight exponent : ℚ) * 2 ^ netShift exponent⌋₊

/-- The scaled target between the hardest and the easiest one. -/
def exactTarget (anchorTarget : Digest) (height : Nat) (activationHeight : Option Nat)
    (exponent : Int) : Nat :=
  max minTarget.toNat
    (min (scaledTarget anchorTarget height activationHeight exponent) genesisTarget.toNat)

/-- Scaling by a signed power of two and rounding down is a shift. -/
theorem floor_mul_zpow (wide : Nat) (net : Int) :
    ⌊(wide : ℚ) * 2 ^ net⌋₊ =
      if 0 ≤ net then wide * 2 ^ net.toNat else wide / 2 ^ (-net).toNat := by
  split
  case isTrue up =>
    obtain ⟨count, rfl⟩ := Int.eq_ofNat_of_zero_le up
    rw [zpow_natCast, Int.toNat_natCast]
    exact_mod_cast Nat.floor_natCast (R := ℚ) (wide * 2 ^ count)
  case isFalse down =>
    obtain ⟨count, eq⟩ := Int.eq_ofNat_of_zero_le (Int.neg_nonneg_of_nonpos (by omega : net ≤ 0))
    obtain rfl : net = -(count : Int) := by omega
    rw [zpow_neg, zpow_natCast, neg_neg, Int.toNat_natCast, ← div_eq_mul_inv]
    exact_mod_cast Nat.floor_div_eq_div (K := ℚ) wide (2 ^ count)

/-- What the limbs hold before the shift. -/
theorem value_wide (anchorTarget : Digest) (height : Nat) (activationHeight : Option Nat)
    (exponent : Int) :
    Limbs.value (mulLimbsU64 (bytesToLimbs anchorTarget) (BitVec.ofNat 64
      (fractionalFactorAtHeight (exponent - exponent / 65536 * 65536).toNat height
        activationHeight))) = wideTarget anchorTarget height activationHeight exponent := by
  have rest : exponent - exponent / 65536 * 65536 = exponent % 65536 := by omega
  obtain ⟨-, below⟩ :=
    factor_bounds (by omega : (exponent % 65536).toNat < 65536) height activationHeight
  rw [rest, mulLimbsU64, Limbs.value_mulWord _ (by decide), value_bytesToLimbs, BitVec.toNat_ofNat,
    Nat.mod_eq_of_lt (by omega)]
  rfl

/-- A shift adds its bits. -/
theorem mul_two_pow_lt {value a b c : Nat} (small : value < 2 ^ a) (fits : a + b ≤ c) :
    value * 2 ^ b < 2 ^ c :=
  calc value * 2 ^ b
    _ < 2 ^ a * 2 ^ b := Nat.mul_lt_mul_of_pos_right small (Nat.two_pow_pos b)
    _ = 2 ^ (a + b) := by rw [Nat.pow_add]
    _ ≤ 2 ^ c := Nat.pow_le_pow_right (by decide) fits

/-- Inside the shortcuts the five limbs lose nothing. -/
theorem value_shiftWide (five : limbs.length = 5) {net : Int} (above : -320 < net)
    (below : net < 46) (small : Limbs.value limbs < 2 ^ 256) :
    Limbs.value (shiftWide limbs net) = ⌊(Limbs.value limbs : ℚ) * 2 ^ net⌋₊ := by
  rw [floor_mul_zpow]
  unfold shiftWide
  split
  case isTrue up =>
    have few : net.toNat < 46 := by omega
    have room := mul_two_pow_lt (c := 320) small (by omega : 256 + net.toNat ≤ 320)
    rw [min_eq_left (few.le.trans (by decide)), value_shl320 five (few.trans (by decide)),
      Nat.mod_eq_of_lt room]
  case isFalse down =>
    rw [min_eq_left (by omega), value_shr320 five (by omega)]

section Range

variable {anchorTarget : Digest} (hard : minTarget ≤ anchorTarget)
  (easy : anchorTarget ≤ genesisTarget) (height : Nat) (activationHeight : Option Nat)
include hard easy

theorem wideTarget_bounds (exponent : Int) :
    65536 ≤ wideTarget anchorTarget height activationHeight exponent ∧
      wideTarget anchorTarget height activationHeight exponent < 2 ^ 256 := by
  have low : minTarget.toNat = 1 := by decide
  have high : genesisTarget.toNat = 2 ^ 238 := by decide
  rw [BitVec.le_def, low] at hard
  rw [BitVec.le_def, high] at easy
  obtain ⟨above, below⟩ :=
    factor_bounds (by omega : (exponent % 65536).toNat < 65536) height activationHeight
  have upper : anchorTarget.toNat *
      fractionalFactorAtHeight (exponent % 65536).toNat height activationHeight ≤
        2 ^ 238 * (2 ^ 18 - 1) := Nat.mul_le_mul easy (Nat.le_sub_one_of_lt below)
  have lower : 1 * 65536 ≤ anchorTarget.toNat *
      fractionalFactorAtHeight (exponent % 65536).toNat height activationHeight :=
    Nat.mul_le_mul hard above
  unfold wideTarget
  omega

/-- A shift this deep leaves nothing. -/
theorem scaledTarget_deep {exponent : Int} (deep : netShift exponent ≤ -320) :
    scaledTarget anchorTarget height activationHeight exponent = 0 := by
  obtain ⟨-, small⟩ := wideTarget_bounds hard easy height activationHeight exponent
  rw [scaledTarget, floor_mul_zpow, if_neg (by omega)]
  apply Nat.div_eq_of_lt
  calc wideTarget anchorTarget height activationHeight exponent
    _ < 2 ^ 256 := small
    _ ≤ 2 ^ (-netShift exponent).toNat := Nat.pow_le_pow_right (by decide) (by omega)

theorem exactTarget_deep {exponent : Int} (deep : netShift exponent ≤ -320) :
    exactTarget anchorTarget height activationHeight exponent = minTarget.toNat := by
  rw [exactTarget, scaledTarget_deep hard easy height activationHeight deep, Nat.zero_min,
    Nat.max_zero]

/-- The code's rule is the exact one, apart from its answer to a net shift of 46 or more. -/
theorem targetFromExponent_eq (exponent : Int) :
    (targetFromExponent anchorTarget height activationHeight exponent).toNat =
      if 46 ≤ netShift exponent then genesisTarget.toNat
      else exactTarget anchorTarget height activationHeight exponent := by
  obtain ⟨positive, small⟩ := wideTarget_bounds hard easy height activationHeight exponent
  have held := value_wide anchorTarget height activationHeight exponent
  have five : (mulLimbsU64 (bytesToLimbs anchorTarget) (BitVec.ofNat 64
      (fractionalFactorAtHeight (exponent - exponent / 65536 * 65536).toNat height
        activationHeight))).length = 5 := Limbs.length_mulWord ..
  simp only [targetFromExponent]
  generalize mulLimbsU64 _ _ = wide at held five
  change (if 46 ≤ netShift exponent then genesisTarget else if netShift exponent ≤ -320 then minTarget
    else if 0 < netShift exponent ∧ shiftWide wide (netShift exponent) = List.replicate 5 0
      then genesisTarget else _).toNat = _
  split
  case isTrue => rfl
  case isFalse below =>
    split
    case isTrue deep => rw [exactTarget_deep hard easy height activationHeight deep]
    case isFalse above =>
      have shifted : Limbs.value (shiftWide wide (netShift exponent)) =
          scaledTarget anchorTarget height activationHeight exponent := by
        rw [value_shiftWide five (by omega) (by omega) (held ▸ small), held, scaledTarget]
      rw [if_neg]
      · rw [exactTarget, ← shifted]
        exact clamped_eq (length_shiftWide five _)
      · -- a left shift keeps the product's bits, and the product is not zero
        rintro ⟨up, none⟩
        rw [none, Limbs.value_zeros, scaledTarget, floor_mul_zpow, if_pos (by omega)] at shifted
        have := Nat.mul_pos (by omega : 0 < wideTarget anchorTarget height activationHeight exponent)
          (Nat.two_pow_pos (netShift exponent).toNat)
        omega

omit hard easy in
theorem exactTarget_eq_genesis_iff (exponent : Int) :
    exactTarget anchorTarget height activationHeight exponent = genesisTarget.toNat ↔
      genesisTarget.toNat ≤ scaledTarget anchorTarget height activationHeight exponent := by
  have low : minTarget.toNat = 1 := by decide
  have high : genesisTarget.toNat = 2 ^ 238 := by decide
  rw [exactTarget, low, high]
  omega

end Range

/-! ## Exponents -/

/-- The exponent as the code's words hold it. -/
def wordExponent (anchorHeight anchorTimestamp height parentTimestamp timestamp : Nat)
    (schedule : ForkSchedule) : Int :=
  match schedule.v2.filter (·.height ≤ height) with
  | none =>
    let ideal := (BitVec.ofNat 64 (saturatingMul 64 (height - anchorHeight) blockTime)).toInt
    let actual : Int := ((min (timestamp - anchorTimestamp) (2 ^ 63 - 1) : Nat) : Int)
    clampI64 (((actual - ideal) * 65536).tdiv (epochLength * blockTime))
  | some activation =>
    let actual : Int := ((min (parentTimestamp - anchorTimestamp) (2 ^ 63 - 1) : Nat) : Int)
    let ideal : Int :=
      ((min (schedule.idealElapsed anchorHeight (height - 1)) (2 ^ 127 - 1) : Nat) : Int)
    clampI64 ((clampI128 (clampI128 (actual - ideal) * 65536)).tdiv
      (epochLength * activation.blockTime))

/-- The next target from the exponent of the elapsed time. -/
theorem nextTargetWithSchedule_eq (anchorHeight anchorTimestamp : Nat) (anchorTarget : Digest)
    (height parentTimestamp timestamp : Nat) (schedule : ForkSchedule) :
    nextTargetWithSchedule anchorHeight anchorTimestamp anchorTarget height parentTimestamp timestamp
      schedule = targetFromExponent anchorTarget height schedule.v11
        (wordExponent anchorHeight anchorTimestamp height parentTimestamp timestamp schedule) := by
  unfold nextTargetWithSchedule wordExponent
  cases schedule.v2.filter (·.height ≤ height) <;> rfl

variable {schedule : ForkSchedule}

/-! ## Monotonicity and range -/

theorem factor_mono {frac frac' : Nat} (below : frac ≤ frac') (height : Nat)
    (activationHeight : Option Nat) :
    fractionalFactorAtHeight frac height activationHeight ≤
      fractionalFactorAtHeight frac' height activationHeight := by
  unfold fractionalFactorAtHeight bchFractionalFactor legacyFractionalFactor
  split <;> gcongr

/-- A full fraction does not reach the next shift. -/
theorem factor_lt {frac : Nat} (small : frac < 65536) (height : Nat)
    (activationHeight : Option Nat) :
    fractionalFactorAtHeight frac height activationHeight < 2 * 65536 := by
  have full : ∀ activation, fractionalFactorAtHeight 65535 height activation < 2 * 65536 := by
    intro activation
    unfold fractionalFactorAtHeight
    split <;> decide
  exact (factor_mono (by omega : frac ≤ 65535) height activationHeight).trans_lt (full _)

/-- The scaled target grows with the exponent. -/
theorem scaledTarget_mono (anchorTarget : Digest) (height : Nat) (activationHeight : Option Nat)
    {exponent exponent' : Int} (below : exponent ≤ exponent') :
    scaledTarget anchorTarget height activationHeight exponent ≤
      scaledTarget anchorTarget height activationHeight exponent' := by
  have fraction : ∀ e : Int, (e % 65536).toNat < 65536 := by
    intro e
    omega
  unfold scaledTarget
  apply Nat.floor_mono
  have shifts : netShift exponent ≤ netShift exponent' := by
    unfold netShift
    omega
  rcases shifts.eq_or_lt with same | next
  · -- Within one shift the factor grows with the fraction.
    have fractions : (exponent % 65536).toNat ≤ (exponent' % 65536).toNat := by
      unfold netShift at same
      omega
    have wider : wideTarget anchorTarget height activationHeight exponent ≤
        wideTarget anchorTarget height activationHeight exponent' :=
      Nat.mul_le_mul_left _ (factor_mono fractions height activationHeight)
    rw [same]
    gcongr
  · -- Across shifts the largest factor is at most twice the smallest.
    have doubled : wideTarget anchorTarget height activationHeight exponent ≤
        wideTarget anchorTarget height activationHeight exponent' * 2 := by
      have upper := factor_lt (fraction exponent) height activationHeight
      have lower := (factor_bounds (fraction exponent') height activationHeight).1
      unfold wideTarget
      rw [Nat.mul_assoc]
      exact Nat.mul_le_mul_left _ (by omega)
    calc (wideTarget anchorTarget height activationHeight exponent : ℚ) * 2 ^ netShift exponent
      _ ≤ (wideTarget anchorTarget height activationHeight exponent' * 2 : ℕ) *
          2 ^ netShift exponent := by gcongr
      _ = wideTarget anchorTarget height activationHeight exponent' *
          2 ^ (netShift exponent + 1) := by
        rw [zpow_add_one₀ (by decide)]
        push_cast
        ring
      _ ≤ wideTarget anchorTarget height activationHeight exponent' *
          2 ^ netShift exponent' := by
        gcongr
        · norm_num
        · omega

section Range

variable {anchorTarget : Digest} (hard : minTarget ≤ anchorTarget)
  (easy : anchorTarget ≤ genesisTarget) (height : Nat) (activationHeight : Option Nat)
include hard easy

theorem targetFromExponent_range (exponent : Int) :
    minTarget ≤ targetFromExponent anchorTarget height activationHeight exponent ∧
      targetFromExponent anchorTarget height activationHeight exponent ≤ genesisTarget := by
  have ordered : minTarget.toNat ≤ genesisTarget.toNat := by decide
  rw [BitVec.le_def, BitVec.le_def, targetFromExponent_eq hard easy]
  unfold exactTarget
  split <;> omega

/-- Targets grow with the exponent. -/
theorem targetFromExponent_mono {exponent exponent' : Int} (below : exponent ≤ exponent') :
    targetFromExponent anchorTarget height activationHeight exponent ≤
      targetFromExponent anchorTarget height activationHeight exponent' := by
  have shifts : netShift exponent ≤ netShift exponent' := by
    unfold netShift
    omega
  by_cases shortcut : 46 ≤ netShift exponent'
  · have top : targetFromExponent anchorTarget height activationHeight exponent' =
        genesisTarget := by
      apply BitVec.eq_of_toNat_eq
      rw [targetFromExponent_eq hard easy, if_pos shortcut]
    rw [top]
    exact (targetFromExponent_range hard easy height activationHeight exponent).2
  · have scaled := scaledTarget_mono anchorTarget height activationHeight below
    rw [BitVec.le_def, targetFromExponent_eq hard easy, targetFromExponent_eq hard easy,
      if_neg shortcut, if_neg (by omega)]
    unfold exactTarget
    omega

end Range

theorem clampI64_mono {a b : Int} (below : a ≤ b) : clampI64 a ≤ clampI64 b := by
  unfold clampI64
  omega

theorem clampI128_mono {a b : Int} (below : a ≤ b) : clampI128 a ≤ clampI128 b := by
  unfold clampI128
  omega

theorem version_eq_v2_iff (schedule : ForkSchedule) (height : Nat) :
    schedule.version height = .v2 ↔ (schedule.v2.filter (·.height ≤ height)).isSome := by
  unfold ForkSchedule.version
  rw [Option.isSome_filter]
  by_cases active : schedule.v2.any (·.height ≤ height) = true
  · simp [active]
  · rw [if_neg active]
    split <;> simpa using active

/-- Before the second fork the exponent follows the child's time. -/
theorem wordExponent_mono_child {height : Nat}
    (before : schedule.v2.filter (·.height ≤ height) = none)
    (anchorHeight anchorTimestamp parent parent' : Nat) {child child' : Nat}
    (below : child ≤ child') :
    wordExponent anchorHeight anchorTimestamp height parent child schedule ≤
      wordExponent anchorHeight anchorTimestamp height parent' child' schedule := by
  simp only [wordExponent, before]
  apply clampI64_mono
  apply Int.tdiv_le_tdiv (by decide)
  omega

/-- From the second fork on it follows the parent's time and no other. -/
theorem wordExponent_mono_parent {height : Nat} {activation : V2Activation}
    (active : schedule.v2.filter (·.height ≤ height) = some activation)
    (anchorHeight anchorTimestamp child child' : Nat) {parent parent' : Nat}
    (below : parent ≤ parent') :
    wordExponent anchorHeight anchorTimestamp height parent child schedule ≤
      wordExponent anchorHeight anchorTimestamp height parent' child' schedule := by
  have positive : (0 : Int) < epochLength * activation.blockTime := by
    have := activation.blockTime_pos
    unfold epochLength
    omega
  simp only [wordExponent, active]
  apply clampI64_mono
  apply Int.tdiv_le_tdiv positive
  apply clampI128_mono
  apply Int.mul_le_mul_of_nonneg_right _ (by decide)
  apply clampI128_mono
  omega

/-- The target stays between the hardest and the easiest one and does not fall as the measured time
grows: the child's own time before the second fork, the parent's from then on. -/
theorem nextTargetWithSchedule_mono (anchorHeight anchorTimestamp height : Nat)
    (anchorTarget : Digest) (schedule : ForkSchedule) (nonzero : anchorTarget ≠ 0)
    (easy : anchorTarget ≤ genesisTarget) :
    let target parent child := nextTargetWithSchedule anchorHeight anchorTimestamp anchorTarget height
      parent child schedule
    (∀ parent child, minTarget ≤ target parent child ∧ target parent child ≤ genesisTarget) ∧
    (schedule.version height ≠ .v2 → ∀ parent child child', child ≤ child' →
      target parent child ≤ target parent child') ∧
    (schedule.version height = .v2 →
      (∀ parent parent' child, parent ≤ parent' → target parent child ≤ target parent' child) ∧
      ∀ parent child child', target parent child = target parent child') := by
  have hard : minTarget ≤ anchorTarget := by
    have one : minTarget.toNat = 1 := by decide
    have positive : anchorTarget.toNat ≠ 0 := fun zero => nonzero (BitVec.eq_of_toNat_eq zero)
    rw [BitVec.le_def, one]
    omega
  intro target
  simp only [target, nextTargetWithSchedule_eq]
  refine ⟨?_, ?_, ?_⟩
  · intro parent child
    exact targetFromExponent_range hard easy height schedule.v11 _
  · intro old parent child child' below
    have before : schedule.v2.filter (·.height ≤ height) = none :=
      Option.not_isSome_iff_eq_none.mp (mt (version_eq_v2_iff schedule height).mpr old)
    exact targetFromExponent_mono hard easy height schedule.v11
      (wordExponent_mono_child before anchorHeight anchorTimestamp parent parent below)
  · intro new
    obtain ⟨activation, active⟩ :=
      Option.isSome_iff_exists.mp ((version_eq_v2_iff schedule height).mp new)
    have shared (parent child child' : Nat) :
        wordExponent anchorHeight anchorTimestamp height parent child schedule =
          wordExponent anchorHeight anchorTimestamp height parent child' schedule :=
      le_antisymm (wordExponent_mono_parent active anchorHeight anchorTimestamp child child' le_rfl)
        (wordExponent_mono_parent active anchorHeight anchorTimestamp child' child le_rfl)
    refine ⟨?_, ?_⟩
    · intro parent parent' child below
      exact targetFromExponent_mono hard easy height schedule.v11
        (wordExponent_mono_parent active anchorHeight anchorTimestamp child child below)
    · intro parent child child'
      rw [shared parent child child']

/-- On the deployed schedule, from an anchor at the easiest target. -/
theorem nextTargetWithSchedule_mono_active :
    nextTargetWithSchedule 0 0 genesisTarget 5 0 10 activeSchedule ≤
      nextTargetWithSchedule 0 0 genesisTarget 5 0 90 activeSchedule :=
  (nextTargetWithSchedule_mono 0 0 5 genesisTarget activeSchedule (by decide) (by decide)).2.1
    (by decide) 0 10 90 (by decide)

end ParanoidChain
