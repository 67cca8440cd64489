import ParanoidChain.Lib.Limbs
import Mathlib.Data.Nat.Bitwise

/-!
# Sums, comparison and division of limbs

The remaining loops of multi-word code: the sum with a carry, the difference with a borrow, the
increment that stops at the first limb without a carry, the comparison from the top limb down, and the
restoring division that draws the bits of the numerator one by one into a remainder of the same width.
Each loop has one lemma about the numbers.
-/

namespace Lib.Limbs

variable {w : Nat}

/-! ## Sum, difference, increment -/

/-- The sum of two numbers of equally many limbs, in double words, and the last carry. -/
def addCarry : BitVec (w + w) → List (BitVec w) → List (BitVec w) → List (BitVec w) × BitVec (w + w)
  | carry, limb :: rest, other :: others =>
    let sum := limb.setWidth (w + w) + other.setWidth (w + w) + carry
    let (high, last) := addCarry (sum >>> w) rest others
    (sum.setWidth w :: high, last)
  | carry, _, _ => ([], carry)

/-- The difference of two numbers of equally many limbs; the borrow is zero or one. -/
def subBorrow : Nat → List (BitVec w) → List (BitVec w) → List (BitVec w)
  | borrow, limb :: rest, other :: others =>
    let diff : Int := limb.toNat - other.toNat - borrow
    if diff < 0 then BitVec.ofInt w (diff + 2 ^ w) :: subBorrow 1 rest others
    else BitVec.ofInt w diff :: subBorrow 0 rest others
  | _, _, _ => []

/-- One more, if some limb takes it without a carry. -/
def increment : List (BitVec w) → Option (List (BitVec w))
  | [] => none
  | limb :: rest =>
    if limb = BitVec.allOnes w then (increment rest).map ((limb + 1#w) :: ·) else some ((limb + 1#w) :: rest)

variable {a b : List (BitVec w)}

@[simp] theorem length_addCarry {carry : BitVec (w + w)} (same : a.length = b.length) :
    (addCarry carry a b).1.length = a.length := by
  induction a generalizing carry b with
  | nil => simp [addCarry]
  | cons limb a ih =>
    obtain ⟨other, b, rfl⟩ := List.exists_cons_of_length_eq_add_one same.symm
    have rest : a.length = b.length := by simpa using same
    simp [addCarry, ih rest]

@[simp] theorem length_subBorrow {borrow : Nat} (same : a.length = b.length) :
    (subBorrow borrow a b).length = a.length := by
  induction a generalizing borrow b with
  | nil => simp [subBorrow]
  | cons limb a ih =>
    obtain ⟨other, b, rfl⟩ := List.exists_cons_of_length_eq_add_one same.symm
    have rest : a.length = b.length := by simpa using same
    unfold subBorrow
    dsimp only
    split <;> simp [ih rest]

/-- The limbs and the last carry hold the sum. -/
theorem value_addCarry (wide : 0 < w) {carry : BitVec (w + w)} (small : carry.toNat ≤ 1)
    (same : a.length = b.length) :
    (addCarry carry a b).2.toNat ≤ 1 ∧
      value (addCarry carry a b).1 + 2 ^ (w * a.length) * (addCarry carry a b).2.toNat =
        value a + value b + carry.toNat := by
  induction a generalizing carry b with
  | nil =>
    obtain rfl := List.eq_nil_of_length_eq_zero same.symm
    simpa [addCarry] using small
  | cons limb a ih =>
    obtain ⟨other, b, rfl⟩ := List.exists_cons_of_length_eq_add_one same.symm
    have := limb.isLt
    have := other.isLt
    have double : 2 ^ w + 2 ^ w ≤ 2 ^ (w + w) := by
      rw [← Nat.two_mul, Nat.pow_add]
      exact Nat.mul_le_mul_right _ (Nat.one_lt_two_pow (by omega))
    have fits (word : BitVec w) : (word.setWidth (w + w)).toNat = word.toNat := by
      rw [BitVec.toNat_setWidth, Nat.mod_eq_of_lt (by have := word.isLt; omega)]
    have sum : (limb.setWidth (w + w) + other.setWidth (w + w) + carry).toNat =
        limb.toNat + other.toNat + carry.toNat := by
      rw [BitVec.toNat_add, BitVec.toNat_add, fits, fits, Nat.mod_add_mod, Nat.mod_eq_of_lt (by omega)]
    set total := limb.setWidth (w + w) + other.setWidth (w + w) + carry
    have high : (total >>> w).toNat = total.toNat / 2 ^ w := by
      rw [BitVec.toNat_ushiftRight, Nat.shiftRight_eq_div_pow]
    have next : (total >>> w).toNat ≤ 1 := by
      rw [high]
      exact Nat.le_of_lt_succ (Nat.div_lt_of_lt_mul (by omega))
    obtain ⟨last, rest⟩ := ih next (by simpa using same)
    refine ⟨last, ?_⟩
    have split := Nat.mod_add_div total.toNat (2 ^ w)
    have unfolded : addCarry carry (limb :: a) (other :: b) =
        (total.setWidth w :: (addCarry (total >>> w) a b).1, (addCarry (total >>> w) a b).2) := rfl
    rw [high] at rest
    rw [unfolded, value_cons, value_cons, value_cons, BitVec.toNat_setWidth, List.length_cons,
      Nat.mul_succ, Nat.pow_add]
    calc total.toNat % 2 ^ w + 2 ^ w * value (addCarry (total >>> w) a b).1 +
          2 ^ (w * a.length) * 2 ^ w * (addCarry (total >>> w) a b).2.toNat
        = total.toNat % 2 ^ w + 2 ^ w * (value (addCarry (total >>> w) a b).1 +
          2 ^ (w * a.length) * (addCarry (total >>> w) a b).2.toNat) := by ring
      _ = (total.toNat % 2 ^ w + 2 ^ w * (total.toNat / 2 ^ w)) +
          2 ^ w * (value a + value b) := by rw [rest]; ring
      _ = _ := by rw [split, sum]; ring

/-- The limbs hold the difference when it is not negative. -/
theorem value_subBorrow {borrow : Nat} (small : borrow ≤ 1) (same : a.length = b.length)
    (below : value b + borrow ≤ value a) :
    value (subBorrow borrow a b) = value a - (value b + borrow) := by
  induction a generalizing borrow b with
  | nil =>
    obtain rfl := List.eq_nil_of_length_eq_zero same.symm
    simp [subBorrow]
  | cons limb a ih =>
    obtain ⟨other, b, rfl⟩ := List.exists_cons_of_length_eq_add_one same.symm
    have rest : a.length = b.length := by simpa using same
    have := limb.isLt
    have := other.isLt
    rw [value_cons, value_cons] at below
    -- a word that owes `owed` to the limbs above it
    have owing {owed : Nat} {word : Int} (few : owed ≤ 1) (spare : value b + owed ≤ value a)
        (count : Nat) (plain : word = count) (small : count < 2 ^ w)
        (paid : count + other.toNat + borrow = limb.toNat + 2 ^ w * owed) :
        value (BitVec.ofInt w word :: subBorrow owed a b) =
          value (limb :: a) - (value (other :: b) + borrow) := by
      obtain ⟨gap, left⟩ := Nat.exists_eq_add_of_le spare
      rw [value_cons, value_cons, value_cons, ih few rest spare, plain, BitVec.ofInt_natCast,
        BitVec.toNat_ofNat, Nat.mod_eq_of_lt small, left, Nat.add_sub_cancel_left]
      have spread : 2 ^ w * (value b + owed + gap) =
          2 ^ w * value b + 2 ^ w * owed + 2 ^ w * gap := by ring
      rw [spread]
      omega
    unfold subBorrow
    dsimp only
    split
    case isTrue negative =>
      -- the limb borrows from the rest, which has one to spare
      have spare : value b + 1 ≤ value a := by
        by_contra short
        have : 2 ^ w * value a ≤ 2 ^ w * value b := Nat.mul_le_mul_left _ (by omega)
        omega
      have : ((2 ^ w : Nat) : Int) = 2 ^ w := by push_cast; rfl
      exact owing le_rfl spare (limb.toNat + 2 ^ w - other.toNat - borrow) (by omega) (by omega)
        (by omega)
    case isFalse nonnegative =>
      have spare : value b + 0 ≤ value a := by
        by_contra short
        have : 2 ^ w * (value a + 1) ≤ 2 ^ w * value b := Nat.mul_le_mul_left _ (by omega)
        have : 2 ^ w * (value a + 1) = 2 ^ w * value a + 2 ^ w := by ring
        omega
      exact owing (Nat.zero_le 1) spare (limb.toNat - other.toNat - borrow) (by omega) (by omega)
        (by omega)

/-- The increment is one more, and is missing only at the greatest number. -/
theorem increment_eq (limbs : List (BitVec w)) :
    match increment limbs with
    | some next => next.length = limbs.length ∧ value next = value limbs + 1
    | none => value limbs + 1 = 2 ^ (w * limbs.length) := by
  induction limbs with
  | nil => simp [increment]
  | cons limb rest ih =>
    have size := Nat.two_pow_pos w
    unfold increment
    by_cases full : limb = BitVec.allOnes w
    · rw [if_pos full]
      have ones : limb.toNat + 1 = 2 ^ w := by
        rw [full, BitVec.toNat_allOnes]
        omega
      have zero : (limb + 1#w).toNat = 0 := by
        rw [BitVec.toNat_add, BitVec.toNat_ofNat, Nat.add_mod_mod, ones, Nat.mod_self]
      cases found : increment rest with
      | none =>
        rw [found] at ih
        dsimp only [Option.map_none] at ih ⊢
        rw [value_cons, List.length_cons, Nat.mul_succ, Nat.pow_add, ← ih, ← ones]
        ring
      | some next =>
        rw [found] at ih
        dsimp only [Option.map_some] at ih ⊢
        refine ⟨by simp [ih.1], ?_⟩
        rw [value_cons, value_cons, ih.2, zero, ← ones]
        ring
    · rw [if_neg full]
      dsimp only
      refine ⟨rfl, ?_⟩
      have room : limb.toNat + 1 < 2 ^ w := by
        have := limb.isLt
        have : limb.toNat ≠ 2 ^ w - 1 := fun last =>
          full (BitVec.eq_of_toNat_eq (by rw [last, BitVec.toNat_allOnes]))
        omega
      rw [value_cons, value_cons, BitVec.toNat_add, BitVec.toNat_ofNat, Nat.add_mod_mod,
        Nat.mod_eq_of_lt room]
      ring

/-! ## Comparison -/

/-- Whether the first number is less, both listed from the top limb. -/
def lessFromTop : List (BitVec w) → List (BitVec w) → Bool
  | limb :: rest, other :: others =>
    if limb < other then true else if other < limb then false else lessFromTop rest others
  | _, _ => false

theorem lessFromTop_iff (same : a.length = b.length) :
    lessFromTop a b = true ↔ value a.reverse < value b.reverse := by
  induction a generalizing b with
  | nil =>
    obtain rfl := List.eq_nil_of_length_eq_zero same.symm
    simp [lessFromTop]
  | cons limb a ih =>
    obtain ⟨other, b, rfl⟩ := List.exists_cons_of_length_eq_add_one same.symm
    have rest : a.length = b.length := by simpa using same
    have low := value_lt a.reverse
    have low' := value_lt b.reverse
    rw [List.length_reverse] at low low'
    rw [← rest] at low'
    simp only [List.reverse_cons, value_append, value_cons, value_nil, Nat.mul_zero, Nat.add_zero,
      List.length_reverse, ← rest]
    -- a smaller top limb decides
    have decides {x y : BitVec w} {p q : Nat} (less : x < y) (bound : p < 2 ^ (w * a.length)) :
        p + 2 ^ (w * a.length) * x.toNat < q + 2 ^ (w * a.length) * y.toNat := by
      have : 2 ^ (w * a.length) * (x.toNat + 1) ≤ 2 ^ (w * a.length) * y.toNat :=
        Nat.mul_le_mul_left _ (BitVec.lt_def.1 less)
      rw [Nat.mul_succ] at this
      omega
    unfold lessFromTop
    by_cases first : limb < other
    · simp only [if_pos first, true_iff]
      exact decides first low
    · rw [if_neg first]
      by_cases second : other < limb
      · simp only [if_pos second, Bool.false_eq_true, false_iff, not_lt]
        exact (decides second low').le
      · rw [if_neg second, ih rest]
        obtain rfl : limb = other := BitVec.eq_of_toNat_eq (by
          rw [BitVec.lt_def] at first second
          omega)
        omega

/-! ## Bits -/

/-- Bit `index` of a number. -/
def bit (limbs : List (BitVec w)) (index : Nat) : Bool :=
  (limbs.getD (index / w) 0) >>> (index % w) &&& 1#w == 1#w

/-- Bit `index` set. -/
def setBit (limbs : List (BitVec w)) (index : Nat) : List (BitVec w) :=
  limbs.modify (index / w) (· ||| 1#w <<< (index % w))

@[simp] theorem length_setBit (limbs : List (BitVec w)) (index : Nat) :
    (setBit limbs index).length = limbs.length := List.length_modify ..

theorem testBit_value (wide : 0 < w) (limbs : List (BitVec w)) (index : Nat) :
    (value limbs).testBit index = (limbs.getD (index / w) 0).getLsbD (index % w) := by
  induction limbs generalizing index with
  | nil => simp
  | cons limb rest ih =>
    rw [value_cons, Nat.add_comm, Nat.testBit_two_pow_mul_add _ limb.isLt]
    by_cases low : index < w
    · rw [if_pos low, Nat.div_eq_of_lt low, Nat.mod_eq_of_lt low, List.getD_cons_zero]
      rfl
    · obtain ⟨above, rfl⟩ := Nat.exists_eq_add_of_le (Nat.le_of_not_lt low)
      rw [if_neg low, Nat.add_sub_cancel_left, ih, Nat.add_div_left _ wide, Nat.add_mod_left,
        List.getD_cons_succ]

theorem bit_eq (wide : 0 < w) (limbs : List (BitVec w)) (index : Nat) :
    bit limbs index = (value limbs).testBit index := by
  rw [testBit_value wide, bit]
  generalize limbs.getD (index / w) 0 = limb
  have one : (1#w).toNat = 1 := BitVec.toNat_one wide
  rw [Bool.eq_iff_iff, beq_iff_eq, ← BitVec.toNat_inj, BitVec.toNat_and, BitVec.toNat_ushiftRight,
    one, Nat.and_one_is_mod, ← BitVec.testBit_toNat, Nat.testBit_eq_decide_div_mod_eq,
    Nat.shiftRight_eq_div_pow, decide_eq_true_iff]

/-- Setting a bit that is clear adds its power. -/
theorem value_setBit (wide : 0 < w) {limbs : List (BitVec w)} {index : Nat}
    (inside : index < w * limbs.length) (clear : (value limbs).testBit index = false) :
    value (setBit limbs index) = value limbs + 2 ^ index := by
  induction limbs generalizing index with
  | nil => simp at inside
  | cons limb rest ih =>
    rw [testBit_value wide] at clear
    by_cases low : index < w
    · rw [Nat.div_eq_of_lt low, Nat.mod_eq_of_lt low, List.getD_cons_zero] at clear
      have apart : limb &&& 1#w <<< index = 0#w := by
        have power : limb &&& BitVec.twoPow w index = 0#w := by
          rw [BitVec.and_twoPow, clear, if_neg Bool.false_ne_true]
        exact power
      have shifted : (1#w <<< index).toNat = 2 ^ index := by
        rw [BitVec.toNat_shiftLeft, BitVec.toNat_one wide, Nat.one_shiftLeft,
          Nat.mod_eq_of_lt (Nat.pow_lt_pow_right (by omega) low)]
      rw [setBit, Nat.div_eq_of_lt low, Nat.mod_eq_of_lt low, List.modify_zero_cons, value_cons,
        value_cons, ← BitVec.add_eq_or_of_and_eq_zero _ _ apart, BitVec.toNat_add_of_and_eq_zero apart,
        shifted]
      ring
    · obtain ⟨above, rfl⟩ := Nat.exists_eq_add_of_le (Nat.le_of_not_lt low)
      rw [Nat.add_div_left _ wide, Nat.add_mod_left, List.getD_cons_succ, ← testBit_value wide] at clear
      have step : setBit (limb :: rest) (w + above) = limb :: setBit rest above := by
        rw [setBit, Nat.add_div_left _ wide, Nat.add_mod_left, List.modify_succ_cons, setBit]
      rw [step, value_cons, value_cons, ih (by rw [List.length_cons, Nat.mul_succ] at inside; omega) clear,
        Nat.pow_add]
      ring

/-! ## Division -/

/-- One round: the next bit of the numerator comes in, the denominator goes out if it fits. -/
def divideRound (numerator denominator : List (BitVec w))
    (state : List (BitVec w) × List (BitVec w)) (index : Nat) : List (BitVec w) × List (BitVec w) :=
  let (quotient, remainder) := state
  let shifted := shiftLeftBits 1 0#w remainder
  let drawn := if bit numerator index then shifted.modifyHead (· ||| 1#w) else shifted
  if lessFromTop drawn.reverse denominator.reverse then (quotient, drawn)
  else (setBit quotient index, subBorrow 0 drawn denominator)

/-- The quotient and the remainder, from the top bit down. -/
def divide (numerator denominator : List (BitVec w)) : List (BitVec w) × List (BitVec w) :=
  (List.range (w * numerator.length)).reverse.foldl (divideRound numerator denominator)
    (List.replicate numerator.length 0, List.replicate numerator.length 0)

/-- The remainder with the next bit drawn in, if it has room for it. -/
theorem value_drawn (wide : 0 < w) {remainder : List (BitVec w)} (one : Bool)
    (room : value remainder * 2 + 1 < 2 ^ (w * remainder.length)) :
    let shifted := shiftLeftBits 1 0#w remainder
    let drawn := if one then shifted.modifyHead (· ||| 1#w) else shifted
    drawn.length = remainder.length ∧ value drawn = value remainder * 2 + one.toNat := by
  have shifted : value (shiftLeftBits 1 0#w remainder) = value remainder * 2 := by
    rw [value_shiftLeftBits wide (by simp), BitVec.toNat_zero, Nat.add_zero, Nat.pow_one,
      Nat.mod_eq_of_lt (by omega)]
  cases one with
  | false => simp [shifted]
  | true =>
    have lowest : (shiftLeftBits 1 0#w remainder).modifyHead (· ||| 1#w) =
        setBit (shiftLeftBits 1 0#w remainder) 0 := by
      rw [setBit, Nat.zero_div, Nat.zero_mod, BitVec.shiftLeft_zero]
      cases shiftLeftBits 1 0#w remainder <;> rfl
    have some : 0 < w * remainder.length := by
      by_contra none
      rw [Nat.eq_zero_of_not_pos none] at room
      omega
    refine ⟨by simp, ?_⟩
    rw [if_pos rfl, lowest, value_setBit wide (by rwa [length_shiftLeftBits]), shifted]
    · rfl
    · rw [shifted, Nat.testBit_zero]
      simp

/-- What holds when the bits from `index` on have been drawn. -/
structure Divided (numerator denominator : List (BitVec w)) (index : Nat)
    (state : List (BitVec w) × List (BitVec w)) : Prop where
  quotientLength : state.1.length = numerator.length
  remainderLength : state.2.length = numerator.length
  quotient : value state.1 = value numerator / 2 ^ index / value denominator * 2 ^ index
  remainder : value state.2 = value numerator / 2 ^ index % value denominator

/-- A round keeps it. The remainder has room for the bit: it is at most what has been drawn so far,
which is less than half of the width. -/
theorem Divided.round (wide : 0 < w) {numerator denominator : List (BitVec w)} {index : Nat}
    {state : List (BitVec w) × List (BitVec w)} (same : denominator.length = numerator.length)
    (positive : 0 < value denominator) (inside : index < w * numerator.length)
    (self : Divided numerator denominator (index + 1) state) :
    Divided numerator denominator index (divideRound numerator denominator state index) := by
  obtain ⟨quotient, remainder⟩ := state
  obtain ⟨quotientLength, remainderLength, whole, left⟩ := self
  dsimp only at quotientLength remainderLength whole left
  set n := value numerator
  set d := value denominator
  have drawnSoFar : n / 2 ^ index = n / 2 ^ (index + 1) * 2 + (n.testBit index).toNat := by
    rw [Nat.testBit_eq_decide_div_mod_eq, Nat.pow_succ, ← Nat.div_div_eq_div_mul]
    have := Nat.mod_add_div (n / 2 ^ index) 2
    rcases Nat.mod_two_eq_zero_or_one (n / 2 ^ index) with even | odd
    · rw [even]
      simp only [Nat.zero_ne_one, decide_false, Bool.toNat_false]
      omega
    · rw [odd]
      simp only [decide_true, Bool.toNat_true]
      omega
  have room : value remainder * 2 + 1 < 2 ^ (w * remainder.length) := by
    have top : n / 2 ^ (index + 1) < 2 ^ (w * numerator.length - 1) := by
      refine Nat.div_lt_of_lt_mul ?_
      rw [← Nat.pow_add]
      exact (value_lt numerator).trans_le (Nat.pow_le_pow_right (by omega) (by omega))
    have half : 2 ^ (w * numerator.length) = 2 ^ (w * numerator.length - 1) * 2 := by
      rw [← Nat.pow_succ]
      congr 1
      omega
    have atMost := Nat.mod_le (n / 2 ^ (index + 1)) d
    rw [remainderLength, half, left]
    omega
  obtain ⟨drawnLength, drawn⟩ := value_drawn wide (bit numerator index) room
  unfold divideRound
  dsimp only at drawnLength drawn ⊢
  generalize (if bit numerator index then (shiftLeftBits 1 0#w remainder).modifyHead (· ||| 1#w)
    else shiftLeftBits 1 0#w remainder) = next at drawnLength drawn ⊢
  rw [bit_eq wide, left] at drawn
  have sameLength : next.length = denominator.length := by omega
  have compare := lessFromTop_iff (a := next.reverse) (b := denominator.reverse)
    (by simpa using sameLength)
  rw [List.reverse_reverse, List.reverse_reverse] at compare
  set q := n / 2 ^ (index + 1) / d
  have split : n / 2 ^ (index + 1) = d * q + n / 2 ^ (index + 1) % d :=
    (Nat.div_add_mod (n / 2 ^ (index + 1)) d).symm
  have scaled : n / 2 ^ index = d * (q * 2) + value next := by
    rw [drawnSoFar, drawn]
    conv_lhs => rw [split]
    ring
  by_cases less : value next < d
  · rw [if_pos (compare.2 less)]
    obtain ⟨newQuotient, newRemainder⟩ :=
      (Nat.div_mod_unique positive).2 ⟨(Nat.add_comm ..).trans scaled.symm, less⟩
    refine ⟨quotientLength, drawnLength.trans remainderLength, ?_, newRemainder.symm⟩
    rw [newQuotient, whole, Nat.pow_succ]
    ring
  · rw [if_neg (compare.not.2 less)]
    have fits : d ≤ value next := Nat.le_of_not_lt less
    have once : value next - d < d := by
      have small := Nat.mod_lt (n / 2 ^ (index + 1)) positive
      have oneBit := Bool.toNat_le ((value numerator).testBit index)
      rw [drawn]
      generalize n / 2 ^ (index + 1) % d = rest at small
      clear_value d
      omega
    have again : value next - d + d * (q * 2 + 1) = n / 2 ^ index := by
      obtain ⟨rest, above⟩ := Nat.exists_eq_add_of_le fits
      rw [scaled, above, Nat.add_sub_cancel_left]
      ring
    obtain ⟨newQuotient, newRemainder⟩ := (Nat.div_mod_unique positive).2 ⟨again, once⟩
    have clear : (value quotient).testBit index = false := by
      rw [whole, Nat.testBit_mul_two_pow]
      simp
    refine ⟨(length_setBit ..).trans quotientLength,
      (length_subBorrow sameLength).trans (drawnLength.trans remainderLength), ?_, ?_⟩
    · rw [newQuotient, value_setBit wide (by rw [quotientLength]; exact inside) clear, whole,
        Nat.pow_succ]
      ring
    · rw [newRemainder, value_subBorrow (Nat.zero_le 1) sameLength fits, Nat.add_zero]

/-- The loop divides. -/
theorem divide_eq (wide : 0 < w) {numerator denominator : List (BitVec w)}
    (same : denominator.length = numerator.length) (positive : 0 < value denominator) :
    (divide numerator denominator).1.length = numerator.length ∧
      value (divide numerator denominator).1 = value numerator / value denominator ∧
      value (divide numerator denominator).2 = value numerator % value denominator := by
  have rounds : ∀ count ≤ w * numerator.length, ∀ state, Divided numerator denominator count state →
      Divided numerator denominator 0
        ((List.range count).reverse.foldl (divideRound numerator denominator) state) := by
    intro count
    induction count with
    | zero => exact fun _ _ drawn => drawn
    | succ count ih =>
      intro inside state drawn
      rw [List.range_succ, List.reverse_append, List.reverse_singleton, List.singleton_append,
        List.foldl_cons]
      exact ih (by omega) _ (drawn.round wide same positive (by omega))
  have start : Divided numerator denominator (w * numerator.length)
      (List.replicate numerator.length 0, List.replicate numerator.length 0) := by
    have nothing : value numerator / 2 ^ (w * numerator.length) = 0 :=
      Nat.div_eq_of_lt (value_lt numerator)
    refine ⟨List.length_replicate, List.length_replicate, ?_, ?_⟩
    · rw [nothing, value_zeros, Nat.zero_div, Nat.zero_mul]
    · rw [nothing, value_zeros, Nat.zero_mod]
  obtain ⟨length, -, quotient, remainder⟩ := rounds _ le_rfl _ start
  rw [Nat.pow_zero, Nat.div_one, Nat.mul_one] at quotient
  rw [Nat.pow_zero, Nat.div_one] at remainder
  exact ⟨length, quotient, remainder⟩

end Lib.Limbs
