import Mathlib.Algebra.Ring.Nat
import Mathlib.Tactic.Common

/-!
# Checked machine arithmetic

`checked_add`, `checked_sub` and `checked_mul` on fixed-width words. A result exists exactly when
the operation on natural numbers stays in the word, and then the two agree; every later fact about
counters is a fact about `toNat`.

The same for numbers with the width of their type beside them: `addInType`, `subInType` and
`mulInType` give nothing where the machine operation would leave its type.
-/

namespace Lib

variable {w : Nat}

/-- `checked_add`: the sum, unless it leaves the word. -/
def checkedAdd (a b : BitVec w) : Option (BitVec w) :=
  if a.toNat + b.toNat < 2 ^ w then some (a + b) else none

/-- `checked_sub`: the difference, unless it would be negative. -/
def checkedSub (a b : BitVec w) : Option (BitVec w) :=
  if b.toNat ≤ a.toNat then some (a - b) else none

/-- `checked_mul`: the product, unless it leaves the word. -/
def checkedMul (a b : BitVec w) : Option (BitVec w) :=
  if a.toNat * b.toNat < 2 ^ w then some (a * b) else none

/-- A subtraction that stays in its type. -/
def subInType (a b : Nat) : Option Nat := if b ≤ a then some (a - b) else none

/-- A sum that stays in its type. -/
def addInType (bits a b : Nat) : Option Nat := if a + b < 2 ^ bits then some (a + b) else none

/-- A product that stays in its type. -/
def mulInType (bits a b : Nat) : Option Nat := if a * b < 2 ^ bits then some (a * b) else none

theorem subInType_eq {a b : Nat} (fits : b ≤ a) : subInType a b = some (a - b) := if_pos fits

theorem addInType_eq {bits a b : Nat} (fits : a + b < 2 ^ bits) :
    addInType bits a b = some (a + b) := if_pos fits

theorem mulInType_eq {bits a b : Nat} (fits : a * b < 2 ^ bits) :
    mulInType bits a b = some (a * b) := if_pos fits

/-- `saturating_add` on numbers of `bits` bits. -/
def saturatingAdd (bits a b : Nat) : Nat := min (a + b) (2 ^ bits - 1)

/-- `saturating_mul` on numbers of `bits` bits. -/
def saturatingMul (bits a b : Nat) : Nat := min (a * b) (2 ^ bits - 1)

theorem toNat_ofNat_of_lt {value : Nat} (fits : value < 2 ^ w) :
    (BitVec.ofNat w value).toNat = value := by
  rw [BitVec.toNat_ofNat, Nat.mod_eq_of_lt fits]

@[simp] theorem checkedAdd_eq_some {a b c : BitVec w} :
    checkedAdd a b = some c ↔ a.toNat + b.toNat = c.toNat := by
  unfold checkedAdd
  split
  · rename_i fits
    rw [Option.some.injEq, ← BitVec.toNat_inj, BitVec.toNat_add, Nat.mod_eq_of_lt fits]
  · have := c.isLt
    simp only [reduceCtorEq, false_iff]
    omega

@[simp] theorem checkedSub_eq_some {a b c : BitVec w} :
    checkedSub a b = some c ↔ a.toNat = c.toNat + b.toNat := by
  unfold checkedSub
  split
  · rename_i fits
    rw [Option.some.injEq, ← BitVec.toNat_inj, BitVec.toNat_sub_of_le (BitVec.le_def.mpr fits)]
    omega
  · simp only [reduceCtorEq, false_iff]
    omega

@[simp] theorem checkedMul_eq_some {a b c : BitVec w} :
    checkedMul a b = some c ↔ a.toNat * b.toNat = c.toNat := by
  unfold checkedMul
  split
  · rename_i fits
    rw [Option.some.injEq, ← BitVec.toNat_inj, BitVec.toNat_mul, Nat.mod_eq_of_lt fits]
  · have := c.isLt
    simp only [reduceCtorEq, false_iff]
    omega

theorem checkedAdd_isSome {a b : BitVec w} :
    (checkedAdd a b).isSome ↔ a.toNat + b.toNat < 2 ^ w := by
  unfold checkedAdd
  split <;> simp_all

end Lib
