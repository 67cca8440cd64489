import Mathlib.Tactic.Ring

/-!
# Limbs

A number as a list of words, least significant first, with the loops that multi-word code is made of:
multiplication by one word with a double-word carry, and shifts by less than a word with the bits that
cross a word boundary carried along. Each loop has one lemma that says what number it leaves.
-/

namespace Lib.Limbs

variable {w : Nat}

/-- The number a list of limbs stands for. -/
def value : List (BitVec w) → Nat
  | [] => 0
  | limb :: rest => limb.toNat + 2 ^ w * value rest

/-- Multiplication by one word; the last carry becomes the top limb. -/
def mulWord (factor : BitVec w) : BitVec (w + w) → List (BitVec w) → List (BitVec w)
  | carry, [] => [carry.setWidth w]
  | carry, limb :: rest =>
    let product := limb.setWidth (w + w) * factor.setWidth (w + w) + carry
    product.setWidth w :: mulWord factor (product >>> w) rest

/-- A left shift by `count` bits, low limbs first; what leaves the top limb is lost. -/
def shiftLeftBits (count : Nat) : BitVec w → List (BitVec w) → List (BitVec w)
  | _, [] => []
  | carry, limb :: rest =>
    (limb <<< count ||| carry) :: shiftLeftBits count (limb >>> (w - count)) rest

/-- A right shift by `count` bits over limbs listed from the top. -/
def shiftRightBits (count : Nat) : BitVec w → List (BitVec w) → List (BitVec w)
  | _, [] => []
  | carry, limb :: rest =>
    (limb >>> count ||| carry) :: shiftRightBits count (limb <<< (w - count)) rest

@[simp] theorem value_nil : value ([] : List (BitVec w)) = 0 := rfl

theorem value_cons (limb : BitVec w) (rest : List (BitVec w)) :
    value (limb :: rest) = limb.toNat + 2 ^ w * value rest := rfl

theorem value_append (low high : List (BitVec w)) :
    value (low ++ high) = value low + 2 ^ (w * low.length) * value high := by
  induction low with
  | nil => simp
  | cons limb low ih =>
    rw [List.cons_append, value_cons, value_cons, ih, List.length_cons, Nat.mul_succ, Nat.pow_add]
    ring

theorem value_lt (limbs : List (BitVec w)) : value limbs < 2 ^ (w * limbs.length) := by
  induction limbs with
  | nil => simp
  | cons limb rest ih =>
    rw [value_cons, List.length_cons, Nat.mul_succ, Nat.pow_add, Nat.mul_comm (2 ^ (w * _))]
    calc limb.toNat + 2 ^ w * value rest
        < 2 ^ w + 2 ^ w * value rest := by have := limb.isLt; omega
      _ = 2 ^ w * (value rest + 1) := by ring
      _ ≤ 2 ^ w * 2 ^ (w * rest.length) := Nat.mul_le_mul_left _ ih

@[simp] theorem value_zeros (count : Nat) : value (List.replicate count (0 : BitVec w)) = 0 := by
  induction count with
  | zero => rfl
  | succ count ih =>
    rw [List.replicate_succ, value_cons, ih]
    rfl

/-- The low limbs are the remainder. -/
theorem value_take {limbs : List (BitVec w)} {count : Nat} (inside : count ≤ limbs.length) :
    value (limbs.take count) = value limbs % 2 ^ (w * count) := by
  conv_rhs => rw [← List.take_append_drop count limbs, value_append, List.length_take_of_le inside]
  have small := value_lt (limbs.take count)
  rw [List.length_take_of_le inside] at small
  rw [Nat.add_mul_mod_self_left, Nat.mod_eq_of_lt small]

/-- The high limbs are the quotient. -/
theorem value_drop {limbs : List (BitVec w)} {count : Nat} (inside : count ≤ limbs.length) :
    value (limbs.drop count) = value limbs / 2 ^ (w * count) := by
  conv_rhs => rw [← List.take_append_drop count limbs, value_append, List.length_take_of_le inside]
  have small := value_lt (limbs.take count)
  rw [List.length_take_of_le inside] at small
  rw [Nat.add_mul_div_left _ _ (Nat.two_pow_pos _), Nat.div_eq_of_lt small, Nat.zero_add]

/-! ## Multiplication -/

/-- The double word holds the product and the carry. -/
theorem toNat_product (limb factor : BitVec w) {carry : BitVec (w + w)}
    (small : carry.toNat < 2 ^ w) :
    (limb.setWidth (w + w) * factor.setWidth (w + w) + carry).toNat =
      limb.toNat * factor.toNat + carry.toNat := by
  have bound : limb.toNat * factor.toNat + carry.toNat < 2 ^ (w + w) := by
    have wide : limb.toNat * factor.toNat ≤ (2 ^ w - 1) * (2 ^ w - 1) :=
      Nat.mul_le_mul (Nat.le_sub_one_of_lt limb.isLt) (Nat.le_sub_one_of_lt factor.isLt)
    have pos := Nat.two_pow_pos w
    obtain ⟨below, size⟩ : ∃ below, 2 ^ w = below + 1 := ⟨2 ^ w - 1, by omega⟩
    rw [size] at wide small
    rw [Nat.pow_add, size]
    simp only [Nat.add_sub_cancel] at wide
    calc limb.toNat * factor.toNat + carry.toNat
        ≤ below * below + below := by omega
      _ < (below + 1) * (below + 1) := by ring_nf; omega
  have fits (word : BitVec w) : word.toNat < 2 ^ (w + w) :=
    word.isLt.trans_le (Nat.pow_le_pow_right (by omega) (by omega))
  rw [BitVec.toNat_add, BitVec.toNat_mul, BitVec.toNat_setWidth, BitVec.toNat_setWidth,
    Nat.mod_eq_of_lt (fits limb), Nat.mod_eq_of_lt (fits factor), Nat.mod_add_mod,
    Nat.mod_eq_of_lt bound]

/-- The loop multiplies, and loses nothing. -/
theorem value_mulWord (factor : BitVec w) {carry : BitVec (w + w)} (small : carry.toNat < 2 ^ w)
    (limbs : List (BitVec w)) :
    value (mulWord factor carry limbs) = value limbs * factor.toNat + carry.toNat := by
  induction limbs generalizing carry with
  | nil => simp [mulWord, value_cons, Nat.mod_eq_of_lt small]
  | cons limb rest ih =>
    have product := toNat_product limb factor small
    have high : ((limb.setWidth (w + w) * factor.setWidth (w + w) + carry) >>> w).toNat =
        (limb.toNat * factor.toNat + carry.toNat) / 2 ^ w := by
      rw [BitVec.toNat_ushiftRight, product, Nat.shiftRight_eq_div_pow]
    have next : ((limb.setWidth (w + w) * factor.setWidth (w + w) + carry) >>> w).toNat < 2 ^ w := by
      rw [BitVec.toNat_ushiftRight, Nat.shiftRight_eq_div_pow]
      refine Nat.div_lt_of_lt_mul ?_
      rw [← Nat.pow_add]
      exact BitVec.isLt _
    rw [mulWord, value_cons, ih next, high, BitVec.toNat_setWidth, product, value_cons]
    have split := Nat.mod_add_div (limb.toNat * factor.toNat + carry.toNat) (2 ^ w)
    generalize (limb.toNat * factor.toNat + carry.toNat) % 2 ^ w = low at split
    generalize (limb.toNat * factor.toNat + carry.toNat) / 2 ^ w = carried at split
    calc low + 2 ^ w * (value rest * factor.toNat + carried)
        = (low + 2 ^ w * carried) + 2 ^ w * value rest * factor.toNat := by ring
      _ = (limb.toNat + 2 ^ w * value rest) * factor.toNat + carry.toNat := by rw [split]; ring

@[simp] theorem length_mulWord (factor : BitVec w) (carry : BitVec (w + w))
    (limbs : List (BitVec w)) : (mulWord factor carry limbs).length = limbs.length + 1 := by
  induction limbs generalizing carry with
  | nil => rfl
  | cons limb rest ih => simp [mulWord, ih]

/-! ## Shifts -/

/-- A left shift and a carry of the freed bits add up. -/
theorem toNat_shiftLeft_or {count : Nat} (inside : count ≤ w) (limb : BitVec w) {carry : BitVec w}
    (small : carry.toNat < 2 ^ count) :
    (limb <<< count ||| carry).toNat = limb.toNat % 2 ^ (w - count) * 2 ^ count + carry.toNat := by
  have power : 2 ^ w = 2 ^ (w - count) * 2 ^ count := by
    rw [← Nat.pow_add, Nat.sub_add_cancel inside]
  have low : limb.toNat * 2 ^ count % 2 ^ w = limb.toNat % 2 ^ (w - count) * 2 ^ count := by
    rw [power, Nat.mul_mod_mul_right]
  rw [BitVec.toNat_or, BitVec.toNat_shiftLeft, Nat.shiftLeft_eq, low, ← Nat.shiftLeft_eq,
    ← Nat.shiftLeft_add_eq_or_of_lt small]

/-- The loop shifts left, and loses what leaves the limbs. -/
theorem value_shiftLeftBits {count : Nat} (inside : count ≤ w) {carry : BitVec w}
    (small : carry.toNat < 2 ^ count) (limbs : List (BitVec w)) :
    value (shiftLeftBits count carry limbs) =
      (value limbs * 2 ^ count + carry.toNat) % 2 ^ (w * limbs.length) := by
  induction limbs generalizing carry with
  | nil => simp [shiftLeftBits, Nat.mod_one]
  | cons limb rest ih =>
    have out : (limb >>> (w - count)).toNat = limb.toNat / 2 ^ (w - count) := by
      rw [BitVec.toNat_ushiftRight, Nat.shiftRight_eq_div_pow]
    have next : (limb >>> (w - count)).toNat < 2 ^ count := by
      rw [out]
      refine Nat.div_lt_of_lt_mul ?_
      rw [← Nat.pow_add, Nat.sub_add_cancel inside]
      exact limb.isLt
    rw [shiftLeftBits, value_cons, ih next, toNat_shiftLeft_or inside limb small, out]
    have split := Nat.mod_add_div limb.toNat (2 ^ (w - count))
    have power : 2 ^ w = 2 ^ (w - count) * 2 ^ count := by
      rw [← Nat.pow_add, Nat.sub_add_cancel inside]
    have bound : limb.toNat % 2 ^ (w - count) * 2 ^ count + carry.toNat < 2 ^ w := by
      rw [← toNat_shiftLeft_or inside limb small]
      exact BitVec.isLt _
    generalize limb.toNat % 2 ^ (w - count) = low at split bound
    generalize limb.toNat / 2 ^ (w - count) = high at split
    have whole : (limb.toNat + 2 ^ w * value rest) * 2 ^ count + carry.toNat =
        (low * 2 ^ count + carry.toNat) + 2 ^ w * (value rest * 2 ^ count + high) := by
      rw [← split, power]
      ring
    rw [value_cons, whole, List.length_cons, Nat.mul_succ, Nat.pow_add, Nat.mul_comm (2 ^ (w * _)),
      Nat.mod_mul, Nat.add_mul_mod_self_left, Nat.mod_eq_of_lt bound,
      Nat.add_mul_div_left _ _ (Nat.two_pow_pos w), Nat.div_eq_of_lt bound, Nat.zero_add]

@[simp] theorem length_shiftLeftBits (count : Nat) (carry : BitVec w) (limbs : List (BitVec w)) :
    (shiftLeftBits count carry limbs).length = limbs.length := by
  induction limbs generalizing carry with
  | nil => rfl
  | cons limb rest ih => simp [shiftLeftBits, ih]

@[simp] theorem length_shiftRightBits (count : Nat) (carry : BitVec w) (limbs : List (BitVec w)) :
    (shiftRightBits count carry limbs).length = limbs.length := by
  induction limbs generalizing carry with
  | nil => rfl
  | cons limb rest ih => simp [shiftRightBits, ih]

/-- The loop shifts right; the carry stands for the bits above. -/
theorem value_shiftRightBits {count : Nat} (inside : count ≤ w) {above : Nat}
    (small : above < 2 ^ count) {carry : BitVec w} (carried : carry.toNat = above * 2 ^ (w - count))
    (limbs : List (BitVec w)) :
    value (shiftRightBits count carry limbs).reverse =
      (above * 2 ^ (w * limbs.length) + value limbs.reverse) / 2 ^ count := by
  induction limbs generalizing carry above with
  | nil => simp [shiftRightBits, Nat.div_eq_of_lt small]
  | cons limb rest ih =>
    have power : 2 ^ w = 2 ^ (w - count) * 2 ^ count := by
      rw [← Nat.pow_add, Nat.sub_add_cancel inside]
    have next : (limb <<< (w - count)).toNat = limb.toNat % 2 ^ count * 2 ^ (w - count) := by
      rw [BitVec.toNat_shiftLeft, Nat.shiftLeft_eq, power, Nat.mul_comm (2 ^ (w - count)),
        Nat.mul_mod_mul_right]
    have word : (limb >>> count ||| carry).toNat =
        above * 2 ^ (w - count) + limb.toNat / 2 ^ count := by
      have low : limb.toNat / 2 ^ count < 2 ^ (w - count) := by
        refine Nat.div_lt_of_lt_mul ?_
        rw [Nat.mul_comm, ← power]
        exact limb.isLt
      rw [BitVec.toNat_or, BitVec.toNat_ushiftRight, Nat.shiftRight_eq_div_pow, carried, Nat.or_comm,
        ← Nat.shiftLeft_eq, ← Nat.shiftLeft_add_eq_or_of_lt low, Nat.shiftLeft_eq]
    rw [shiftRightBits, List.reverse_cons, value_append, List.reverse_cons, value_append,
      ih (Nat.mod_lt _ (Nat.two_pow_pos _)) next]
    simp only [value_cons, value_nil, Nat.mul_zero, Nat.add_zero, List.length_reverse,
      length_shiftRightBits, word, List.length_cons, Nat.mul_succ, Nat.pow_add]
    have split := Nat.mod_add_div limb.toNat (2 ^ count)
    generalize limb.toNat % 2 ^ count = low at split
    generalize limb.toNat / 2 ^ count = high at split
    have whole : above * (2 ^ (w * rest.length) * 2 ^ w) +
        (value rest.reverse + 2 ^ (w * rest.length) * limb.toNat) =
        (low * 2 ^ (w * rest.length) + value rest.reverse) +
          2 ^ count * (2 ^ (w * rest.length) * (above * 2 ^ (w - count) + high)) := by
      rw [← split, power]
      ring
    rw [whole, Nat.add_mul_div_left _ _ (Nat.two_pow_pos count)]

end Lib.Limbs
