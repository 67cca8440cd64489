import Mathlib.Algebra.BigOperators.Intervals
import Mathlib.Algebra.BigOperators.Ring.Finset
import Mathlib.Algebra.Order.BigOperators.Group.Finset
import Mathlib.Data.Nat.Log
import Mathlib.Tactic.Ring

/-!
# Leaves spread over a binary tree

How many positions of a tree lie above a set of leaves, level by level. Leaves that occupy `used`
subtrees of height `lower` have at most `min count (used * 2 ^ j)` positions above them inside the
subtrees and at most `min used (2 ^ j)` above those (`pathNodes_le`), and one choice of leaves reaches
all of these bounds at once: bit-reversed counters, one for the subtree and one inside it
(`pathNodes_spread`).
-/

namespace Lib.Spread

open Finset

/-! ## Levels -/

/-- The number of positions of a level that lie above one of the leaves. -/
def levelCount (leaves : Finset ℕ) (level : ℕ) : ℕ := (leaves.image (· / 2 ^ level)).card

variable {leaves : Finset ℕ} {level upper lower depth : ℕ}

@[simp] theorem levelCount_zero (leaves : Finset ℕ) : levelCount leaves 0 = leaves.card := by
  simp [levelCount]

theorem levelCount_le_card (leaves : Finset ℕ) (level : ℕ) :
    levelCount leaves level ≤ leaves.card := card_image_le

/-- The positions `more` levels up. -/
theorem image_add (leaves : Finset ℕ) (level more : ℕ) : leaves.image (· / 2 ^ (level + more)) =
    (leaves.image (· / 2 ^ level)).image (· / 2 ^ more) := by
  simp [image_image, Function.comp_def, Nat.div_div_eq_div_mul, pow_add]

/-- Higher levels have fewer positions. -/
theorem levelCount_anti (higher : level ≤ upper) :
    levelCount leaves upper ≤ levelCount leaves level := by
  obtain ⟨more, rfl⟩ := Nat.exists_eq_add_of_le higher
  rw [levelCount, levelCount, image_add]
  exact card_image_le

/-- A position has at most `2 ^ more` positions below it, `more` levels down. -/
theorem levelCount_le_mul (leaves : Finset ℕ) (level more : ℕ) :
    levelCount leaves level ≤ levelCount leaves (level + more) * 2 ^ more := by
  rw [levelCount, levelCount, image_add, Nat.mul_comm]
  refine card_le_mul_card_image _ _ fun parent _ => ?_
  have children : {pos ∈ leaves.image (· / 2 ^ level) | pos / 2 ^ more = parent} ⊆
      Ico (parent * 2 ^ more) (parent * 2 ^ more + 2 ^ more) := by
    intro pos chosen
    obtain ⟨-, above⟩ := mem_filter.mp chosen
    have split := Nat.div_add_mod pos (2 ^ more)
    have low := Nat.mod_lt pos (Nat.two_pow_pos more)
    rw [above, Nat.mul_comm] at split
    exact mem_Ico.mpr ⟨by omega, by omega⟩
  simpa using card_le_card children

theorem levelCount_le_two_pow (inside : ∀ leaf ∈ leaves, leaf < 2 ^ (level + upper)) :
    levelCount leaves level ≤ 2 ^ upper := by
  have below : leaves.image (· / 2 ^ level) ⊆ range (2 ^ upper) := by
    intro pos member
    obtain ⟨leaf, found, rfl⟩ := mem_image.mp member
    exact mem_range.mpr (Nat.div_lt_of_lt_mul (pow_add 2 level upper ▸ inside leaf found))
  calc levelCount leaves level ≤ (range (2 ^ upper)).card := card_le_card below
    _ = 2 ^ upper := card_range _

/-! ## The bound -/

/-- The number of all positions above the leaves, the leaves and the root included. -/
def pathNodes (leaves : Finset ℕ) (depth : ℕ) : ℕ := ∑ level ∈ range (depth + 1), levelCount leaves level

/-- The positions above `count` leaves that fill `used` subtrees of height `lower` evenly. -/
def spreadNodes (count used lower upper : ℕ) : ℕ :=
  ∑ j ∈ range lower, min count (used * 2 ^ (j + 1)) + ∑ j ∈ range (upper + 1), min used (2 ^ j)

theorem pathNodes_split (leaves : Finset ℕ) (lower upper : ℕ) :
    pathNodes leaves (lower + upper) =
      ∑ j ∈ range lower, levelCount leaves (lower - 1 - j) +
        ∑ j ∈ range (upper + 1), levelCount leaves (lower + (upper - j)) := by
  rw [pathNodes, Nat.add_assoc, sum_range_add, ← sum_range_reflect,
    ← sum_range_reflect (fun j => levelCount leaves (lower + j))]
  simp only [Nat.add_sub_cancel]

/-- No set of leaves has more positions above it than an even one in as many subtrees. -/
theorem pathNodes_le (inside : ∀ leaf ∈ leaves, leaf < 2 ^ (lower + upper)) :
    pathNodes leaves (lower + upper) ≤
      spreadNodes leaves.card (levelCount leaves lower) lower upper := by
  rw [pathNodes_split, spreadNodes]
  refine Nat.add_le_add (sum_le_sum fun j chosen => ?_) (sum_le_sum fun j chosen => ?_)
  · have below := mem_range.mp chosen
    have fits := levelCount_le_mul leaves (lower - 1 - j) (j + 1)
    rw [show lower - 1 - j + (j + 1) = lower by omega] at fits
    exact le_min (levelCount_le_card _ _) fits
  · have below := mem_range.mp chosen
    refine le_min (levelCount_anti (by omega)) (levelCount_le_two_pow fun leaf member => ?_)
    rw [show lower + (upper - j) + j = lower + upper by omega]
    exact inside leaf member

/-! ## Bit reversal -/

/-- The low `width` bits of a number in reverse order. -/
def bitReverse : ℕ → ℕ → ℕ
  | 0, _ => 0
  | width + 1, x => x % 2 * 2 ^ width + bitReverse width (x / 2)

theorem bitReverse_lt (width x : ℕ) : bitReverse width x < 2 ^ width := by
  induction width generalizing x with
  | zero => simp [bitReverse]
  | succ width ih =>
    have low := ih (x / 2)
    rw [bitReverse, pow_succ]
    rcases Nat.mod_two_eq_zero_or_one x with bit | bit <;> rw [bit] <;> omega

/-- The high bits of the reversal are the reversal of the low bits. -/
theorem bitReverse_div (width more x : ℕ) :
    bitReverse (width + more) x / 2 ^ more = bitReverse width x := by
  induction width generalizing x with
  | zero => rw [Nat.zero_add, bitReverse, Nat.div_eq_of_lt (bitReverse_lt more x)]
  | succ width ih =>
    rw [show width + 1 + more = width + more + 1 by omega, bitReverse, bitReverse, ← ih (x / 2), pow_add,
      ← Nat.mul_assoc, Nat.add_comm, Nat.add_mul_div_right _ _ (Nat.two_pow_pos more), Nat.add_comm]

theorem bitReverse_eq_iff {width x y : ℕ} :
    bitReverse width x = bitReverse width y ↔ x % 2 ^ width = y % 2 ^ width := by
  induction width generalizing x y with
  | zero => simp [bitReverse, Nat.mod_one]
  | succ width ih =>
    have first := bitReverse_lt width (x / 2)
    have second := bitReverse_lt width (y / 2)
    rw [bitReverse, bitReverse, pow_succ', Nat.mod_mul, Nat.mod_mul]
    constructor
    · intro same
      have top : x % 2 = y % 2 := by
        rcases Nat.mod_two_eq_zero_or_one x with bit | bit <;>
          rcases Nat.mod_two_eq_zero_or_one y with bit' | bit' <;> rw [bit, bit'] at same ⊢ <;> omega
      rw [top, Nat.add_right_inj] at same
      rw [top, ih.mp same]
    · intro same
      have top : x % 2 = y % 2 := by omega
      have rest : x / 2 % 2 ^ width = y / 2 % 2 ^ width := by omega
      rw [top, ih.mpr rest]

/-! ## The spread leaves -/

/-- A function that separates exactly the residues takes `min count modulus` values. -/
theorem card_image_range {f : ℕ → ℕ} {modulus : ℕ} (pos : 0 < modulus)
    (same : ∀ i j, f i = f j ↔ i % modulus = j % modulus) (count : ℕ) :
    ((range count).image f).card = min count modulus := by
  have fewer : (range count).image f = (range (min count modulus)).image f := by
    ext value
    simp only [mem_image, mem_range, lt_min_iff]
    constructor
    · rintro ⟨i, below, rfl⟩
      exact ⟨i % modulus, ⟨(Nat.mod_le i modulus).trans_lt below, Nat.mod_lt i pos⟩,
        (same _ _).mpr (Nat.mod_mod _ _)⟩
    · rintro ⟨i, ⟨below, -⟩, rfl⟩
      exact ⟨i, below, rfl⟩
  rw [fewer, card_image_of_injOn, card_range]
  intro i first j second equal
  simp only [coe_range, Set.mem_Iio, lt_min_iff] at first second
  have residues := (same i j).mp equal
  rwa [Nat.mod_eq_of_lt first.2, Nat.mod_eq_of_lt second.2] at residues

/-- The `index`-th leaf: the counter of the subtree and the counter inside it, both reversed. -/
def spreadLeaf (used lower upper index : ℕ) : ℕ :=
  bitReverse upper (index % used) * 2 ^ lower + bitReverse lower (index / used)

/-- `count` leaves spread over `used` subtrees of height `lower`. -/
def spread (count used lower upper : ℕ) : Finset ℕ :=
  (range count).image (spreadLeaf used lower upper)

section Spread

variable {count used : ℕ}

theorem spreadLeaf_lt (used lower upper index : ℕ) :
    spreadLeaf used lower upper index < 2 ^ (lower + upper) := by
  have low := bitReverse_lt lower (index / used)
  have high := bitReverse_lt upper (index % used)
  calc spreadLeaf used lower upper index
      < (bitReverse upper (index % used) + 1) * 2 ^ lower := by rw [spreadLeaf, Nat.succ_mul]; omega
    _ ≤ 2 ^ upper * 2 ^ lower := Nat.mul_le_mul_right _ high
    _ = 2 ^ (lower + upper) := by rw [pow_add, Nat.mul_comm]

/-- Inside a subtree: the subtree and the high bits of the local counter. -/
theorem spreadLeaf_div_low (below more : ℕ) (index : ℕ) :
    spreadLeaf used (below + more) upper index / 2 ^ more =
      bitReverse upper (index % used) * 2 ^ below + bitReverse below (index / used) := by
  rw [spreadLeaf, pow_add, ← Nat.mul_assoc, Nat.add_comm,
    Nat.add_mul_div_right _ _ (Nat.two_pow_pos more), bitReverse_div, Nat.add_comm]

/-- Above the subtrees: the high bits of the counter of the subtree. -/
theorem spreadLeaf_div_high (below more : ℕ) (index : ℕ) :
    spreadLeaf used lower (below + more) index / 2 ^ (lower + more) =
      bitReverse below (index % used) := by
  have low := bitReverse_lt lower (index / used)
  rw [spreadLeaf, pow_add, ← Nat.div_div_eq_div_mul, Nat.add_comm,
    Nat.add_mul_div_right _ _ (Nat.two_pow_pos lower), Nat.div_eq_of_lt low, Nat.zero_add,
    bitReverse_div]

theorem levelCount_spread_low (count : ℕ) (some : 0 < used) (fits : used ≤ 2 ^ upper) (below more : ℕ) :
    levelCount (spread count used (below + more) upper) more = min count (used * 2 ^ below) := by
  rw [levelCount, spread, image_image]
  refine card_image_range (Nat.mul_pos some (Nat.two_pow_pos below)) (fun i j => ?_) count
  have first := Nat.mod_lt i some
  have second := Nat.mod_lt j some
  have high (index : ℕ) : (bitReverse upper (index % used) * 2 ^ below +
      bitReverse below (index / used)) / 2 ^ below = bitReverse upper (index % used) := by
    rw [Nat.add_comm, Nat.add_mul_div_right _ _ (Nat.two_pow_pos below),
      Nat.div_eq_of_lt (bitReverse_lt below _), Nat.zero_add]
  simp only [Function.comp_apply, spreadLeaf_div_low]
  rw [Nat.mod_mul, Nat.mod_mul]
  constructor
  · intro same
    have reversed : bitReverse upper (i % used) = bitReverse upper (j % used) := by
      rw [← high i, ← high j, same]
    have subtree : i % used = j % used := by
      have residues := bitReverse_eq_iff.mp reversed
      rwa [Nat.mod_eq_of_lt (first.trans_le fits), Nat.mod_eq_of_lt (second.trans_le fits)]
        at residues
    rw [reversed, Nat.add_right_inj, bitReverse_eq_iff] at same
    rw [subtree, same]
  · intro same
    have subtree : i % used = j % used := by
      have parts := congrArg (· % used) same
      simpa using parts
    rw [subtree, Nat.add_right_inj] at same
    rw [subtree, bitReverse_eq_iff.mpr (Nat.eq_of_mul_eq_mul_left some same)]

theorem levelCount_spread_high (some : 0 < used) (enough : used ≤ count) (lower below more : ℕ) :
    levelCount (spread count used lower (below + more)) (lower + more) = min used (2 ^ below) := by
  have residues : (range count).image (fun index => bitReverse below (index % used)) =
      (range used).image (bitReverse below) := by
    ext value
    simp only [mem_image, mem_range]
    constructor
    · rintro ⟨i, -, rfl⟩
      exact ⟨i % used, Nat.mod_lt i some, rfl⟩
    · rintro ⟨i, inside, rfl⟩
      exact ⟨i, by omega, by rw [Nat.mod_eq_of_lt inside]⟩
  rw [levelCount, spread, image_image, ← card_image_range (Nat.two_pow_pos below)
    (fun i j => bitReverse_eq_iff) used, ← residues]
  congr 1
  exact image_congr fun index _ => spreadLeaf_div_high below more index

theorem card_spread (some : 0 < used) (fits : used ≤ 2 ^ upper) (room : count ≤ used * 2 ^ lower) :
    (spread count used lower upper).card = count := by
  have leaves := levelCount_spread_low count some fits lower 0
  rwa [levelCount_zero, Nat.add_zero, Nat.min_eq_left room] at leaves

/-- The spread leaves reach the bound on every level. -/
theorem pathNodes_spread (some : 0 < used) (fits : used ≤ 2 ^ upper) (enough : used ≤ count) :
    pathNodes (spread count used lower upper) (lower + upper) =
      spreadNodes count used lower upper := by
  rw [pathNodes_split, spreadNodes]
  congr 1
  · refine sum_congr rfl fun j chosen => ?_
    have below := mem_range.mp chosen
    have level := levelCount_spread_low count some fits (j + 1) (lower - 1 - j)
    rwa [show j + 1 + (lower - 1 - j) = lower by omega] at level
  · refine sum_congr rfl fun j chosen => ?_
    have below := mem_range.mp chosen
    have level := levelCount_spread_high some enough lower j (upper - j)
    rwa [show j + (upper - j) = upper by omega] at level

end Spread

/-! ## Closed forms -/

/-- The positions above `count` leaves spread over a whole tree. -/
def evenNodes (count depth : ℕ) : ℕ := ∑ j ∈ range (depth + 1), min count (2 ^ j)

theorem sum_two_pow_add_one (count : ℕ) : ∑ j ∈ range count, 2 ^ j + 1 = 2 ^ count := by
  induction count with
  | zero => rfl
  | succ count ih =>
    rw [sum_range_succ, pow_succ]
    omega

/-- Below the covering power every level is full, from there on every leaf has its own position. -/
theorem evenNodes_eq {count depth : ℕ} (fits : count ≤ 2 ^ depth) :
    evenNodes count depth + 1 =
      2 ^ Nat.clog 2 count + (depth - Nat.clog 2 count + 1) * count := by
  have low := Nat.clog_le_of_le_pow fits
  obtain ⟨more, rfl⟩ := Nat.exists_eq_add_of_le low
  have full : ∀ j ∈ range (Nat.clog 2 count), min count (2 ^ j) = 2 ^ j := fun j chosen =>
    Nat.min_eq_right (Nat.pow_lt_of_lt_clog (mem_range.mp chosen)).le
  have separate : ∀ j ∈ range (more + 1), min count (2 ^ (Nat.clog 2 count + j)) = count :=
    fun j _ => Nat.min_eq_left ((Nat.le_pow_clog one_lt_two count).trans
      (Nat.pow_le_pow_right two_pos (Nat.le_add_right _ _)))
  rw [evenNodes, Nat.add_assoc, sum_range_add, sum_congr rfl full, sum_congr rfl separate, sum_const,
    card_range, Nat.nsmul_eq_mul, Nat.add_sub_cancel_left, Nat.add_right_comm]
  exact congrArg (· + (more + 1) * count) (sum_two_pow_add_one _)

theorem two_mul_le_evenNodes {count depth : ℕ} (fits : count ≤ 2 ^ depth) :
    2 * count ≤ evenNodes count depth + 1 := by
  have cover := Nat.le_pow_clog one_lt_two count
  have paths : 1 * count ≤ (depth - Nat.clog 2 count + 1) * count :=
    Nat.mul_le_mul_right _ (by omega)
  rw [evenNodes_eq fits]
  omega

/-- Balanced shares of `used` subtrees meet every bound of the whole. -/
theorem evenNodes_balanced {used remainder : ℕ} (small : remainder < used) (quotient depth : ℕ) :
    (used - remainder) * evenNodes quotient depth + remainder * evenNodes (quotient + 1) depth =
      ∑ j ∈ range (depth + 1), min (used * quotient + remainder) (used * 2 ^ j) := by
  rw [evenNodes, evenNodes, mul_sum, mul_sum, ← sum_add_distrib]
  refine sum_congr rfl fun j _ => ?_
  obtain ⟨others, rfl⟩ := Nat.exists_eq_add_of_lt small
  rw [show remainder + others + 1 - remainder = others + 1 by omega]
  rcases Nat.lt_or_ge quotient (2 ^ j) with narrow | wide
  · have room : (remainder + others + 1) * (quotient + 1) ≤ (remainder + others + 1) * 2 ^ j :=
      Nat.mul_le_mul_left _ narrow
    rw [Nat.mul_succ] at room
    rw [Nat.min_eq_left narrow.le, Nat.min_eq_left (show quotient + 1 ≤ 2 ^ j from narrow),
      Nat.min_eq_left (by omega)]
    ring
  · have room := Nat.mul_le_mul_left (remainder + others + 1) wide
    rw [Nat.min_eq_right wide, Nat.min_eq_right (by omega), Nat.min_eq_right (by omega)]
    ring

theorem spreadNodes_add {count used : ℕ} (enough : used ≤ count) (lower upper : ℕ) :
    spreadNodes count used lower upper + used =
      ∑ j ∈ range (lower + 1), min count (used * 2 ^ j) + evenNodes used upper := by
  rw [spreadNodes, evenNodes, sum_range_succ' _ lower, pow_zero, Nat.mul_one, Nat.min_eq_right enough]
  omega

/-- In one subtree, the whole tree. -/
theorem spreadNodes_one {count : ℕ} (some : 1 ≤ count) (depth : ℕ) :
    spreadNodes count 1 depth 0 = evenNodes count depth := by
  have split := spreadNodes_add some depth 0
  simp only [Nat.one_mul] at split
  simpa [evenNodes] using split

end Lib.Spread
