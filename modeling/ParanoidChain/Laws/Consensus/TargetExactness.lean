import ParanoidChain.Laws.Consensus.Difficulty

/-!
# When the difficulty rule is exact

The exact rule takes the lateness of a block in half-lives, as an exponent in 16-bit fixed point, and
scales the anchor target by it. The code departs from it in three places, and
`nextTargetWithSchedule_exact_iff` says when this shows.

- A lateness of 62 half-lives or more answers with the easiest target, as if every anchor were near
  `2^256`. For a hard anchor the exact target may still be below the easiest one (`shortcut_jumps`).
- The elapsed seconds are capped at `i64::MAX`.
- Before the second fork the ideal seconds are cast to `i64`. From `2^63` on the cast wraps, and a
  block that is far too early counts as late (`wrapped_ideal_jumps`).

The saturating operations after the second fork do not show: where they saturate, both the code and the
exact rule are past the hardest target.
-/

namespace ParanoidChain

open Lib

/-! ## The measured times -/

section Times

variable (anchorHeight anchorTimestamp height parentTimestamp timestamp : Nat)
  (schedule : ForkSchedule)

/-- The seconds since the anchor: up to the child before the second fork, up to the parent from then
on. -/
def elapsedSeconds : Nat :=
  match schedule.v2.filter (·.height ≤ height) with
  | none => timestamp - anchorTimestamp
  | some _ => parentTimestamp - anchorTimestamp

/-- The seconds the schedule foresees for the same blocks. -/
def idealSeconds : Nat :=
  match schedule.v2.filter (·.height ≤ height) with
  | none => (height - anchorHeight) * blockTime
  | some _ => schedule.idealElapsed anchorHeight (height - 1)

/-- The half-life at the child's height. -/
def halflifeSeconds : Nat :=
  match schedule.v2.filter (·.height ≤ height) with
  | none => epochLength * blockTime
  | some activation => epochLength * activation.blockTime

end Times

/-- `(late · 65536) / halflife`, truncated toward zero, over the integers. -/
def exponentOf (late : Int) (halflife : Nat) : Int := (late * 65536).tdiv halflife

variable {halflife : Nat}

/-- The exponent grows with the lateness. -/
theorem exponentOf_mono {late later : Int} (positive : 0 < halflife) (below : late ≤ later) :
    exponentOf late halflife ≤ exponentOf later halflife := by
  unfold exponentOf
  apply Int.tdiv_le_tdiv (by omega)
  omega

/-- The shortcut is taken from 62 half-lives on. -/
theorem shortcut_iff {late : Int} (positive : 0 < halflife) :
    46 ≤ netShift (exponentOf late halflife) ↔ 62 * (halflife : Int) ≤ late := by
  have net : 46 ≤ netShift (exponentOf late halflife) ↔ 62 * 65536 ≤ exponentOf late halflife := by
    unfold netShift
    omega
  rw [net, exponentOf]
  by_cases early : late < 0
  · have negative : (late * 65536).tdiv halflife ≤ 0 := by
      rw [← neg_neg (late * 65536), Int.neg_tdiv]
      have := Int.tdiv_nonneg (a := -(late * 65536)) (b := halflife) (by omega) (by omega)
      omega
    omega
  · rw [Int.tdiv_eq_ediv_of_nonneg (by omega), Int.le_ediv_iff_mul_le (by omega)]
    omega

/-! ## Words and numbers -/

/-- Two exponents the rule cannot tell apart: equal ones, or two that lead to the same bound. -/
inductive SameTarget : Int → Int → Prop where
  | same {exponent} : SameTarget exponent exponent
  | easiest {word exact} : 46 ≤ netShift word → 46 ≤ netShift exact → SameTarget word exact
  | hardest {word exact} : netShift word ≤ -320 → netShift exact ≤ -320 → SameTarget word exact

/-- The clamp to `i64` is past one of the bounds where it changes anything. -/
theorem SameTarget.clampI64 (exponent : Int) : SameTarget (clampI64 exponent) exponent := by
  by_cases low : exponent < -(2 ^ 63)
  · exact .hardest (by simp only [ParanoidChain.clampI64, netShift]; omega) (by rw [netShift]; omega)
  · by_cases high : 2 ^ 63 - 1 < exponent
    · exact .easiest (by simp only [ParanoidChain.clampI64, netShift]; omega)
        (by rw [netShift]; omega)
    · rw [show ParanoidChain.clampI64 exponent = exponent by rw [ParanoidChain.clampI64]; omega]
      exact .same

/-- A deficit of `2^126` is deep for every half-life of 67 bits. -/
theorem tdiv_deep {deficit halflife : Int} (deep : deficit ≤ -(2 ^ 126)) (positive : 0 < halflife)
    (small : halflife < 2 ^ 67) : deficit.tdiv halflife ≤ -(2 ^ 59) := by
  obtain ⟨size, rfl⟩ : ∃ size : Nat, deficit = -(size : Int) := ⟨deficit.natAbs, by omega⟩
  obtain ⟨length, rfl⟩ := Int.eq_ofNat_of_zero_le positive.le
  have quotient : 2 ^ 59 ≤ size / length := by
    rw [Nat.le_div_iff_mul_le (by omega)]
    calc 2 ^ 59 * length
      _ ≤ 2 ^ 59 * 2 ^ 67 := Nat.mul_le_mul_left _ (by omega)
      _ ≤ size := by omega
  rw [Int.neg_tdiv, ← Int.ofNat_tdiv]
  omega

/-- After the second fork the saturating operations of the code do not show: where they saturate,
both exponents are past the hardest target. -/
theorem SameTarget.saturating {elapsed ideal halflife : Nat} (positive : 0 < halflife)
    (small : halflife < 2 ^ 67) (capped : elapsed < 2 ^ 63) :
    SameTarget (ParanoidChain.clampI64 ((clampI128 (clampI128
        ((elapsed : Int) - ((min ideal (2 ^ 127 - 1) : Nat) : Int)) * 65536)).tdiv halflife))
      (exponentOf ((elapsed : Int) - (ideal : Int)) halflife) := by
  unfold exponentOf
  by_cases near : ideal ≤ 2 ^ 111
  · have exact : clampI128 (clampI128 ((elapsed : Int) -
        ((min ideal (2 ^ 127 - 1) : Nat) : Int)) * 65536) = ((elapsed : Int) - ideal) * 65536 := by
      simp only [clampI128]
      omega
    rw [exact]
    exact .clampI64 _
  · have word : (clampI128 (clampI128 ((elapsed : Int) -
        ((min ideal (2 ^ 127 - 1) : Nat) : Int)) * 65536)).tdiv halflife ≤ -(2 ^ 59) :=
      tdiv_deep (by simp only [clampI128]; omega) (by omega) (by omega)
    have exact : (((elapsed : Int) - ideal) * 65536).tdiv halflife ≤ -(2 ^ 59) :=
      tdiv_deep (by omega) (by omega) (by omega)
    exact .hardest (by simp only [ParanoidChain.clampI64, netShift]; omega)
      (by rw [netShift]; omega)

/-- The ideal seconds as an `i64`: exact below `2^63`, and from there on short of nothing by at least
one. -/
theorem toInt_ideal (ideal : Nat) :
    (BitVec.ofNat 64 (min ideal (2 ^ 64 - 1))).toInt =
      if ideal < 2 ^ 63 then (ideal : Int) else -((max (2 ^ 64 - ideal) 1 : Nat) : Int) := by
  have held : (BitVec.ofNat 64 (min ideal (2 ^ 64 - 1))).toNat = min ideal (2 ^ 64 - 1) :=
    toNat_ofNat_of_lt (by omega)
  rw [BitVec.toInt_eq_toNat_cond, held]
  split <;> split <;> omega

/-! ## What the code computes -/

section Range

variable {anchorTarget : Digest} (hard : minTarget ≤ anchorTarget)
  (easy : anchorTarget ≤ genesisTarget) (height : Nat) (activationHeight : Option Nat)
include hard easy

/-- With an exponent as good as that of a lateness, the code answers to the lateness. -/
theorem SameTarget.target_eq {word late : Int} (positive : 0 < halflife)
    (near : SameTarget word (exponentOf late halflife)) :
    (targetFromExponent anchorTarget height activationHeight word).toNat =
      if 62 * (halflife : Int) ≤ late then genesisTarget.toNat
      else exactTarget anchorTarget height activationHeight (exponentOf late halflife) := by
  rw [targetFromExponent_eq hard easy]
  simp only [← shortcut_iff positive]
  generalize exponentOf late halflife = exact at near
  cases near with
  | same => rfl
  | easiest first second => rw [if_pos first, if_pos second]
  | hardest first second =>
    rw [if_neg (by omega), if_neg (by omega), exactTarget_deep hard easy height activationHeight first,
      exactTarget_deep hard easy height activationHeight second]

omit easy in
/-- A lateness of a whole half-life doubles the anchor target. -/
theorem two_le_scaledTarget {late : Int} (positive : 0 < halflife)
    (whole : (halflife : Int) ≤ late) :
    2 ≤ scaledTarget anchorTarget height activationHeight (exponentOf late halflife) := by
  have low : minTarget.toNat = 1 := by decide
  rw [BitVec.le_def, low] at hard
  have one : exponentOf halflife halflife = 65536 := by
    rw [exponentOf, Int.tdiv_eq_ediv_of_nonneg (by omega), Int.mul_ediv_cancel_left _ (by omega)]
  have doubled : scaledTarget anchorTarget height activationHeight 65536 =
      anchorTarget.toNat * 65536 / 2 ^ 15 := by
    have factor : fractionalFactorAtHeight 0 height activationHeight = 65536 := by
      unfold fractionalFactorAtHeight
      split <;> decide
    rw [scaledTarget, floor_mul_zpow]
    change anchorTarget.toNat * fractionalFactorAtHeight 0 height activationHeight / 2 ^ 15 = _
    rw [factor]
  calc 2
    _ ≤ anchorTarget.toNat * 65536 / 2 ^ 15 := by omega
    _ = scaledTarget anchorTarget height activationHeight (exponentOf halflife halflife) := by
      rw [one, doubled]
    _ ≤ _ := scaledTarget_mono anchorTarget height activationHeight (exponentOf_mono positive whole)

omit easy in
/-- Less than a half-life late, the hardest target stays the hardest, and no other target becomes
it. -/
theorem scaledTarget_le_one_iff {late : Int} (positive : 0 < halflife) (late_nonneg : 0 ≤ late)
    (part : late < halflife) :
    scaledTarget anchorTarget height activationHeight (exponentOf late halflife) ≤ 1 ↔
      anchorTarget = minTarget := by
  have low : minTarget.toNat = 1 := by decide
  have nonneg : 0 ≤ exponentOf late halflife := Int.tdiv_nonneg (by omega) (by omega)
  have below : exponentOf late halflife < 65536 := by
    rw [exponentOf, Int.tdiv_eq_ediv_of_nonneg (by omega)]
    apply Int.ediv_lt_of_lt_mul (by omega)
    omega
  have net : netShift (exponentOf late halflife) = -16 := by
    unfold netShift
    omega
  have fraction : (exponentOf late halflife % 65536).toNat < 65536 := by omega
  obtain ⟨above, -⟩ := factor_bounds fraction height activationHeight
  have under := factor_lt fraction height activationHeight
  rw [scaledTarget, floor_mul_zpow, net]
  change anchorTarget.toNat * _ / 2 ^ 16 ≤ 1 ↔ _
  rw [BitVec.le_def, low] at hard
  rw [← BitVec.toNat_inj, low]
  generalize fractionalFactorAtHeight _ height activationHeight = factor at above under
  constructor
  · intro small
    by_contra more
    have twice : 2 * 65536 ≤ anchorTarget.toNat * factor := Nat.mul_le_mul (by omega) above
    omega
  · intro one
    rw [one]
    omega

omit hard easy in
/-- Two times give one exact target exactly when no step of the rounded target lies between them. -/
theorem exactTarget_eq_iff {first second : Int} (ordered : first ≤ second) :
    exactTarget anchorTarget height activationHeight first =
        exactTarget anchorTarget height activationHeight second ↔
      genesisTarget.toNat ≤ scaledTarget anchorTarget height activationHeight first ∨
        scaledTarget anchorTarget height activationHeight second ≤
          max minTarget.toNat (scaledTarget anchorTarget height activationHeight first) := by
  have grows := scaledTarget_mono anchorTarget height activationHeight ordered
  have low : minTarget.toNat = 1 := by decide
  have high : genesisTarget.toNat = 2 ^ 238 := by decide
  unfold exactTarget
  rw [low, high]
  omega

end Range

/-- A block early by 304 half-lives is past the hardest target. -/
theorem netShift_early {late : Int} (positive : 0 < halflife)
    (early : late ≤ -(304 * (halflife : Int))) : netShift (exponentOf late halflife) ≤ -320 := by
  have whole : exponentOf (-(304 * (halflife : Int))) halflife = -(304 * 65536) := by
    rw [exponentOf, show -(304 * (halflife : Int)) * 65536 = (halflife : Int) * -(304 * 65536) by ring,
      Int.mul_tdiv_cancel_left _ (by omega)]
  have below := exponentOf_mono positive early
  rw [whole] at below
  unfold netShift
  omega

/-! ## Exactness -/

section Exactness

variable {anchorHeight anchorTimestamp height parentTimestamp timestamp : Nat}
  {schedule : ForkSchedule} {anchorTarget : Digest}

/-- A half-life is positive. -/
theorem halflifeSeconds_pos (height : Nat) (schedule : ForkSchedule) :
    0 < halflifeSeconds height schedule := by
  unfold halflifeSeconds
  split
  · decide
  · rename_i activation _
    exact Nat.mul_pos (by decide) activation.blockTime_pos

variable (hard : minTarget ≤ anchorTarget) (easy : anchorTarget ≤ genesisTarget)
include hard easy

/-- Unless the cast of the ideal seconds wraps, the code answers to the lateness of the capped elapsed
seconds. -/
theorem nextTarget_capped (intervals : ∀ second ∈ schedule.v2, second.blockTime < 2 ^ 64)
    (fits : schedule.version height = .v2 ∨ idealSeconds anchorHeight height schedule < 2 ^ 63) :
    (nextTargetWithSchedule anchorHeight anchorTimestamp anchorTarget height parentTimestamp timestamp
      schedule).toNat =
      let late : Int := ((min (elapsedSeconds anchorTimestamp height parentTimestamp timestamp schedule)
        (2 ^ 63 - 1) : Nat) : Int) - idealSeconds anchorHeight height schedule
      if 62 * (halflifeSeconds height schedule : Int) ≤ late then genesisTarget.toNat
      else exactTarget anchorTarget height schedule.v11
        (exponentOf late (halflifeSeconds height schedule)) := by
  rw [version_eq_v2_iff] at fits
  have positive := halflifeSeconds_pos height schedule
  unfold nextTargetWithSchedule
  unfold idealSeconds halflifeSeconds at *
  unfold elapsedSeconds
  cases active : schedule.v2.filter (·.height ≤ height) with
  | none =>
    simp only [active] at fits positive ⊢
    have fits : (height - anchorHeight) * blockTime < 2 ^ 63 := by simpa using fits
    refine SameTarget.target_eq hard easy height schedule.v11 positive ?_
    have ideal := toInt_ideal ((height - anchorHeight) * blockTime)
    rw [if_pos fits] at ideal
    rw [saturatingMul, ideal]
    exact .clampI64 _
  | some activation =>
    simp only [active] at fits positive ⊢
    have known : activation ∈ schedule.v2 := (Option.filter_eq_some_iff.mp active).1
    have small := intervals activation known
    refine SameTarget.target_eq hard easy height schedule.v11 positive ?_
    have halflife : (epochLength : Int) * activation.blockTime =
        ((epochLength * activation.blockTime : Nat) : Int) := (Nat.cast_mul ..).symm
    rw [halflife]
    exact .saturating positive (by unfold epochLength; omega) (by omega)

/-- Where the cast wraps, the code answers to a lateness that is always positive. -/
theorem nextTarget_wrapped (old : schedule.version height ≠ .v2)
    (wraps : 2 ^ 63 ≤ idealSeconds anchorHeight height schedule) :
    (nextTargetWithSchedule anchorHeight anchorTimestamp anchorTarget height parentTimestamp timestamp
      schedule).toNat =
      let late : Int := ((min (elapsedSeconds anchorTimestamp height parentTimestamp timestamp schedule)
        (2 ^ 63 - 1) + max (2 ^ 64 - idealSeconds anchorHeight height schedule) 1 : Nat) : Int)
      if 62 * (halflifeSeconds height schedule : Int) ≤ late then genesisTarget.toNat
      else exactTarget anchorTarget height schedule.v11
        (exponentOf late (halflifeSeconds height schedule)) := by
  have before : schedule.v2.filter (·.height ≤ height) = none :=
    Option.not_isSome_iff_eq_none.mp (mt (version_eq_v2_iff schedule height).mpr old)
  have positive := halflifeSeconds_pos height schedule
  unfold nextTargetWithSchedule
  unfold idealSeconds halflifeSeconds at *
  unfold elapsedSeconds
  simp only [before] at wraps positive ⊢
  refine SameTarget.target_eq hard easy height schedule.v11 positive ?_
  have ideal := toInt_ideal ((height - anchorHeight) * blockTime)
  rw [if_neg (by omega)] at ideal
  rw [saturatingMul, ideal, Nat.cast_add, ← sub_neg_eq_add]
  exact .clampI64 _

/-- Where the cast wraps and the shortcut is not taken, the exact target is the hardest one, and the
code finds it from the hardest anchor within one half-life only. -/
theorem wrapped_exact_iff {elapsed ideal : Nat} (positive : 0 < halflife)
    (short : halflife < 2 ^ 48) (wraps : 2 ^ 63 ≤ ideal)
    (inside : min elapsed (2 ^ 63 - 1) + max (2 ^ 64 - ideal) 1 < 62 * halflife) :
    exactTarget anchorTarget height schedule.v11 (exponentOf
        ((min elapsed (2 ^ 63 - 1) + max (2 ^ 64 - ideal) 1 : Nat) : Int) halflife) =
        exactTarget anchorTarget height schedule.v11
          (exponentOf ((elapsed : Int) - ideal) halflife) ↔
      anchorTarget = minTarget ∧
        min elapsed (2 ^ 63 - 1) + max (2 ^ 64 - ideal) 1 < halflife := by
  have early : netShift (exponentOf ((elapsed : Int) - ideal) halflife) ≤ -320 :=
    netShift_early positive (by omega)
  have low : minTarget.toNat = 1 := by decide
  have high : genesisTarget.toNat = 2 ^ 238 := by decide
  rw [exactTarget_deep hard easy height schedule.v11 early]
  generalize late : min elapsed (2 ^ 63 - 1) + max (2 ^ 64 - ideal) 1 = seconds at inside ⊢
  have hardest : exactTarget anchorTarget height schedule.v11 (exponentOf (seconds : Int) halflife) =
      minTarget.toNat ↔
        scaledTarget anchorTarget height schedule.v11 (exponentOf (seconds : Int) halflife) ≤ 1 := by
    rw [exactTarget, low, high]
    omega
  rw [hardest]
  by_cases part : seconds < halflife
  · rw [scaledTarget_le_one_iff hard height schedule.v11 positive (by omega) (by omega)]
    simp only [part, and_true]
  · have doubled := two_le_scaledTarget hard height schedule.v11 positive
      (by omega : (halflife : Int) ≤ (seconds : Int))
    simp only [part, and_false, iff_false]
    omega

end Exactness

/-- The target of a child is the exact one precisely in these cases.

- Before the second fork, with ideal seconds of `2^63` or more: the wrapped lateness is 62 half-lives
  or more and the exact target is the easiest one, or it is less than one half-life and the anchor
  target is the hardest one.
- Otherwise, with a capped lateness of 62 half-lives or more: the exact target is the easiest one.
- Otherwise, with less: the elapsed seconds are not capped, or no step of the rounded target lies
  between the capped and the elapsed seconds. -/
theorem nextTargetWithSchedule_exact_iff
    (anchorHeight anchorTimestamp height parentTimestamp timestamp : U64) (anchorTarget : Digest)
    (schedule : ForkSchedule) (hard : minTarget ≤ anchorTarget)
    (easy : anchorTarget ≤ genesisTarget)
    (intervals : ∀ second ∈ schedule.v2, second.blockTime < 2 ^ 64) :
    let elapsed := elapsedSeconds anchorTimestamp.toNat height.toNat parentTimestamp.toNat
      timestamp.toNat schedule
    let ideal := idealSeconds anchorHeight.toNat height.toNat schedule
    let halflife := halflifeSeconds height.toNat schedule
    let capped := min elapsed (2 ^ 63 - 1)
    let wrapped := capped + max (2 ^ 64 - ideal) 1
    let exponent (seconds : Nat) := exponentOf ((seconds : Int) - ideal) halflife
    let scaled (seconds : Nat) := scaledTarget anchorTarget height.toNat schedule.v11 (exponent seconds)
    (nextTargetWithSchedule anchorHeight.toNat anchorTimestamp.toNat anchorTarget height.toNat
        parentTimestamp.toNat timestamp.toNat schedule).toNat =
        exactTarget anchorTarget height.toNat schedule.v11 (exponent elapsed) ↔
      if schedule.version height.toNat ≠ .v2 ∧ 2 ^ 63 ≤ ideal then
        if 62 * halflife ≤ wrapped then genesisTarget.toNat ≤ scaled elapsed
        else anchorTarget = minTarget ∧ wrapped < halflife
      else if ideal + 62 * halflife ≤ capped then genesisTarget.toNat ≤ scaled elapsed
      else elapsed < 2 ^ 63 ∨ genesisTarget.toNat ≤ scaled capped ∨
        scaled elapsed ≤ max minTarget.toNat (scaled capped) := by
  intro elapsed ideal halflife capped wrapped exponent scaled
  have positive : 0 < halflife := halflifeSeconds_pos height.toNat schedule
  split
  case isTrue wraps =>
    have short : halflife < 2 ^ 48 := by
      have before : schedule.v2.filter (·.height ≤ height.toNat) = none :=
        Option.not_isSome_iff_eq_none.mp (mt (version_eq_v2_iff schedule _).mpr wraps.1)
      simp only [halflife, halflifeSeconds, before]
      decide
    rw [nextTarget_wrapped hard easy wraps.1 wraps.2]
    change (if 62 * (halflife : Int) ≤ (wrapped : Int) then _ else exactTarget anchorTarget height.toNat
      schedule.v11 (exponentOf (wrapped : Int) halflife)) = _ ↔ _
    by_cases late : 62 * halflife ≤ wrapped
    · rw [if_pos (by omega), if_pos late, eq_comm, exactTarget_eq_genesis_iff]
    · rw [if_neg (by omega), if_neg late]
      exact wrapped_exact_iff hard easy positive short wraps.2 (by omega)
  case isFalse fits =>
    have fits : schedule.version height.toNat = .v2 ∨ ideal < 2 ^ 63 := by
      by_cases new : schedule.version height.toNat = .v2
      · exact .inl new
      · exact .inr (not_le.mp fun wraps => fits ⟨new, wraps⟩)
    rw [nextTarget_capped hard easy intervals fits]
    change (if 62 * (halflife : Int) ≤ (capped : Int) - ideal then _ else exactTarget anchorTarget
      height.toNat schedule.v11 (exponent capped)) = _ ↔ _
    by_cases late : ideal + 62 * halflife ≤ capped
    · rw [if_pos (by omega), if_pos late, eq_comm, exactTarget_eq_genesis_iff]
    · have ordered : exponent capped ≤ exponent elapsed :=
        exponentOf_mono positive (by omega)
      rw [if_neg (by omega), if_neg late, exactTarget_eq_iff _ _ ordered]
      constructor
      · exact .inr
      · rintro (whole | step)
        · have same : capped = elapsed := by omega
          rw [same]
          exact .inr (le_max_right _ _)
        · exact step

/-- At the genesis anchor: a block on time meets the exact target, and so does one that is a hundred
half-lives late, where the shortcut is right. -/
theorem nextTargetWithSchedule_exact_on_time :
    (∀ second ∈ activeSchedule.v2, second.blockTime < 2 ^ 64) ∧
    (nextTargetWithSchedule 0 0 genesisTarget 1 0 20 activeSchedule).toNat =
      exactTarget genesisTarget 1 activeSchedule.v11 (exponentOf 0 120) ∧
    (nextTargetWithSchedule 0 0 genesisTarget 1 0 12020 activeSchedule).toNat =
      exactTarget genesisTarget 1 activeSchedule.v11 (exponentOf 12000 120) := by
  have intervals : ∀ second ∈ activeSchedule.v2, second.blockTime < 2 ^ 64 := by decide
  refine ⟨intervals, ?_, ?_⟩
  · exact (nextTargetWithSchedule_exact_iff 0 0 1 0 20 genesisTarget activeSchedule (by decide)
      (by decide) intervals).mpr (by decide +kernel)
  · refine (nextTargetWithSchedule_exact_iff 0 0 1 0 12020 genesisTarget activeSchedule (by decide)
      (by decide) intervals).mpr ?_
    have reached : genesisTarget.toNat ≤
        scaledTarget genesisTarget 1 activeSchedule.v11 (exponentOf 12000 120) := by
      rw [scaledTarget, floor_mul_zpow]
      decide +kernel
    rw [if_neg (by decide +kernel), if_pos (by decide +kernel)]
    exact reached

/-- From the hardest anchor, 62 half-lives of delay lead to `2^62`; the code answers with `2^238`. -/
theorem shortcut_jumps :
    (nextTargetWithSchedule 0 0 minTarget 1 0 7460 ⟨none, none, by simp⟩).toNat = 2 ^ 238 ∧
      exactTarget minTarget 1 none (exponentOf (7460 - 20) 120) = 2 ^ 62 := by
  refine ⟨by decide +kernel, ?_⟩
  rw [exactTarget, scaledTarget, floor_mul_zpow]
  decide +kernel

/-- At a height whose ideal seconds are `2^63`, a block at the time of its anchor is early by all of
them, and the exact target is the hardest one; the code answers with the easiest. -/
theorem wrapped_ideal_jumps :
    (nextTargetWithSchedule 0 0 genesisTarget 461168601842738791 0 0 ⟨none, none, by simp⟩).toNat =
        2 ^ 238 ∧
      exactTarget genesisTarget 461168601842738791 none
        (exponentOf (0 - 461168601842738791 * 20) 120) = 1 := by
  refine ⟨by decide +kernel, ?_⟩
  rw [exactTarget_deep (by decide) (by decide) _ _ (netShift_early (by decide) (by decide))]
  decide

end ParanoidChain
