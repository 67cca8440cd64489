import Mathlib.Algebra.CharP.Two
import Mathlib.Algebra.Algebra.Defs
import Mathlib.Data.Fintype.Prod
import Mathlib.Tactic.FieldSimp
import Mathlib.Tactic.LinearCombination
import Mathlib.Tactic.Ring

/-!
# Quadratic extensions in characteristic two

Elements `lo + hi * X` with `X * X = X + tau`, multiplied by the three products of Karatsuba's
method. Over a field in which `y * y + y = tau` has no solution the extension is a field, with the
inverse taken through the norm, and in it `y * y + y = tau * X` has no solution either. So towers can
be built level by level with no trace computed: the new constant keeps the old one as its upper half.
-/

namespace Lib

/-- The element `lo + hi * X`, where `X * X = X + tau`. -/
@[ext]
structure Quadratic (F : Type) (tau : F) where
  lo : F
  hi : F
  deriving DecidableEq

/-- The polynomial `X * X + X + tau` has no root. -/
class Rootless {F : Type} [CommRing F] (tau : F) : Prop where
  root_ne : ∀ y : F, y * y + y ≠ tau

namespace Quadratic

variable {F : Type} {tau : F}

/-! ## The ring -/

section Ring

variable [CommRing F]

instance : Zero (Quadratic F tau) := ⟨⟨0, 0⟩⟩

instance : One (Quadratic F tau) := ⟨⟨1, 0⟩⟩

instance : Add (Quadratic F tau) := ⟨fun x y => ⟨x.lo + y.lo, x.hi + y.hi⟩⟩

instance : Neg (Quadratic F tau) := ⟨fun x => ⟨-x.lo, -x.hi⟩⟩

instance : Mul (Quadratic F tau) := ⟨fun x y =>
  let v0 := x.lo * y.lo
  let v1 := x.hi * y.hi
  let vSum := (x.lo + x.hi) * (y.lo + y.hi)
  ⟨v0 + v1 * tau, v0 + vSum⟩⟩

@[simp] theorem zero_lo : (0 : Quadratic F tau).lo = 0 := rfl

@[simp] theorem zero_hi : (0 : Quadratic F tau).hi = 0 := rfl

@[simp] theorem one_lo : (1 : Quadratic F tau).lo = 1 := rfl

@[simp] theorem one_hi : (1 : Quadratic F tau).hi = 0 := rfl

@[simp] theorem add_lo (x y : Quadratic F tau) : (x + y).lo = x.lo + y.lo := rfl

@[simp] theorem add_hi (x y : Quadratic F tau) : (x + y).hi = x.hi + y.hi := rfl

@[simp] theorem neg_lo (x : Quadratic F tau) : (-x).lo = -x.lo := rfl

@[simp] theorem neg_hi (x : Quadratic F tau) : (-x).hi = -x.hi := rfl

/-- The constant coefficient of a product: the square of the generator brings `tau` in. -/
@[simp] theorem mul_lo (x y : Quadratic F tau) :
    (x * y).lo = x.lo * y.lo + x.hi * y.hi * tau := rfl

/-- The other coefficient, with the three products of the base field that are computed. -/
theorem mul_karatsuba (x y : Quadratic F tau) :
    (x * y).hi = x.lo * y.lo + (x.lo + x.hi) * (y.lo + y.hi) := rfl

variable [CharP F 2]

/-- The other coefficient as schoolbook multiplication has it. -/
@[simp] theorem mul_hi (x y : Quadratic F tau) :
    (x * y).hi = x.lo * y.hi + x.hi * y.lo + x.hi * y.hi := by
  rw [mul_karatsuba]
  linear_combination x.lo * y.lo * (CharTwo.two_eq_zero : (2 : F) = 0)

instance : CommRing (Quadratic F tau) where
  add_assoc x y z := by ext <;> simp [add_assoc]
  zero_add x := by ext <;> simp
  add_zero x := by ext <;> simp
  add_comm x y := by ext <;> simp [add_comm]
  left_distrib x y z := by ext <;> simp <;> ring
  right_distrib x y z := by ext <;> simp <;> ring
  zero_mul x := by ext <;> simp
  mul_zero x := by ext <;> simp
  mul_assoc x y z := by ext <;> simp <;> ring
  one_mul x := by ext <;> simp
  mul_one x := by ext <;> simp
  neg_add_cancel x := by ext <;> simp
  mul_comm x y := by ext <;> simp <;> ring
  nsmul := nsmulRec
  zsmul := zsmulRec

@[simp] theorem sub_lo (x y : Quadratic F tau) : (x - y).lo = x.lo - y.lo := by
  rw [sub_eq_add_neg, add_lo, neg_lo, sub_eq_add_neg]

@[simp] theorem sub_hi (x y : Quadratic F tau) : (x - y).hi = x.hi - y.hi := by
  rw [sub_eq_add_neg, add_hi, neg_hi, sub_eq_add_neg]

/-- The elements without an `X`. -/
def ofBase : F →+* Quadratic F tau where
  toFun value := ⟨value, 0⟩
  map_zero' := rfl
  map_one' := rfl
  map_add' x y := by ext <;> simp
  map_mul' x y := by ext <;> simp

instance : Algebra F (Quadratic F tau) := ofBase.toAlgebra

/-- A homomorphism of the base extends to the extension by the image of `X`. -/
def lift {R : Type} [CommRing R] (f : F →+* R) {x : R} (root : x * x = x + f tau) :
    Quadratic F tau →+* R where
  toFun q := f q.lo + f q.hi * x
  map_zero' := by simp
  map_one' := by simp
  map_add' p q := by
    simp only [add_lo, add_hi, map_add]
    ring
  map_mul' p q := by
    simp only [mul_lo, mul_hi, map_add, map_mul]
    linear_combination -(f p.hi * f q.hi) * root

/-- A ring with a root of the polynomial receives the extension by evaluation at the root. -/
theorem lift_apply {R : Type} [CommRing R] (f : F →+* R) {x : R} (root : x * x = x + f tau)
    (q : Quadratic F tau) : lift f root q = f q.lo + f q.hi * x := rfl

@[simp] theorem algebraMap_lo (value : F) : (algebraMap F (Quadratic F tau) value).lo = value := rfl

@[simp] theorem algebraMap_hi (value : F) : (algebraMap F (Quadratic F tau) value).hi = 0 := rfl

/-- An element is in the base field exactly when its upper coefficient vanishes. -/
theorem mem_range_algebraMap (x : Quadratic F tau) :
    x ∈ Set.range (algebraMap F (Quadratic F tau)) ↔ x.hi = 0 := by
  constructor
  · rintro ⟨value, rfl⟩
    rfl
  · intro flat
    exact ⟨x.lo, Quadratic.ext rfl flat.symm⟩

instance [Nontrivial F] : CharP (Quadratic F tau) 2 := by
  have apart : (1 : Quadratic F tau) ≠ 0 := fun same => one_ne_zero (congrArg Quadratic.lo same)
  have twice : (2 : Quadratic F tau) = 0 := by
    rw [← one_add_one_eq_two]
    ext
    · exact CharTwo.add_self_eq_zero 1
    · exact add_zero 0
  exact CharTwo.of_one_ne_zero_of_two_eq_zero apart twice

end Ring

/-! ## The field -/

section Field

variable [Field F] [CharP F 2]

/-- The product with the conjugate `lo + hi + hi * X`. -/
def norm (x : Quadratic F tau) : F :=
  x.hi * x.hi * tau + x.hi * x.lo + x.lo * x.lo

/-- The inverse through the norm. -/
def invert (x : Quadratic F tau) : Quadratic F tau :=
  let normInv := x.norm⁻¹
  ⟨(x.hi + x.lo) * normInv, x.hi * normInv⟩

/-- The norm is anisotropic where the polynomial has no root. -/
theorem norm_ne_zero [Rootless tau] {x : Quadratic F tau} (other : x ≠ 0) : x.norm ≠ 0 := by
  intro vanishes
  unfold norm at vanishes
  by_cases flat : x.hi = 0
  · -- Without an `X` the norm is the square of the lower half.
    rw [flat] at vanishes
    have low : x.lo = 0 := by simpa using vanishes
    exact other (Quadratic.ext low flat)
  · -- Otherwise the quotient of the halves would be a root.
    refine Rootless.root_ne (x.lo / x.hi) (?_ : _ = tau)
    field_simp
    linear_combination vanishes -
      x.hi * x.hi * tau * (CharTwo.two_eq_zero : (2 : F) = 0)

/-- So every element but zero is inverted by its conjugate over its norm. -/
theorem mul_invert [Rootless tau] {x : Quadratic F tau} (other : x ≠ 0) : x * x.invert = 1 := by
  have positive := norm_ne_zero other
  have unit : x.norm * x.norm⁻¹ = 1 := mul_inv_cancel₀ positive
  ext
  · rw [mul_lo, invert, one_lo, ← unit, norm]
    ring
  · rw [mul_hi, invert, one_hi]
    linear_combination x.hi * (x.hi + x.lo) * x.norm⁻¹ * (CharTwo.two_eq_zero : (2 : F) = 0)

instance [Rootless tau] : Field (Quadratic F tau) where
  inv := invert
  exists_pair_ne := ⟨0, 1, fun same => zero_ne_one (congrArg Quadratic.lo same)⟩
  mul_inv_cancel _ other := mul_invert other
  inv_zero := by ext <;> simp [invert]
  nnqsmul := _
  nnqsmul_def := fun _ _ => rfl
  qsmul := _
  qsmul_def := fun _ _ => rfl

/-- The next level of the tower: no root for `tau * X`. -/
instance [Rootless tau] : Rootless (⟨0, tau⟩ : Quadratic F tau) where
  root_ne y same := by
    refine Rootless.root_ne y.hi (?_ : _ = tau)
    have high := congrArg Quadratic.hi same
    simp only [add_hi, mul_hi] at high
    linear_combination high - y.lo * y.hi * (CharTwo.two_eq_zero : (2 : F) = 0)

end Field

instance [Fintype F] : Fintype (Quadratic F tau) :=
  .ofEquiv (F × F) {
    toFun := fun pair => ⟨pair.1, pair.2⟩
    invFun := fun x => (x.lo, x.hi)
    left_inv := fun _ => rfl
    right_inv := fun _ => rfl }

end Quadratic

end Lib
