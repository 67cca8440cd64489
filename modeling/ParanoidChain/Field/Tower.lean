import ParanoidChain.Lib.Quadratic
import ParanoidChain.Lib.Residue

/-!
# The binary tower

The fields of `noid_core/src/tower`: `Block8` is GF(2^8) modulo the AES polynomial, and every further
level is the quadratic extension of the one below by `X * X + X + TAU`, up to the anchor field
`Block128` and its extension `Block256`. An element is stored packed in the source; here the two
halves are the two fields of `Quadratic`, which is what `split` and `new` read and write.
-/

namespace ParanoidChain.Tower

open Lib

/-! ## GF(2^8) -/

/-- `Block8`: a byte, bit `i` of which is the coefficient of `x ^ i`. -/
@[ext]
structure Block8 where
  bits : BitVec 8
  deriving DecidableEq

/-- The carry-less product of two bytes. -/
def carrylessProduct (a b : BitVec 8) : BitVec 16 :=
  (List.range 8).foldl
    (fun p i => p ^^^ (if b.getLsbD i then a.setWidth 16 <<< i else 0#16)) 0#16

/-- One step of the reduction modulo `x^8 + x^4 + x^3 + x + 1`: bit `position` is folded down. The
bit itself stays and is dropped with the upper byte. -/
def foldBit (p : BitVec 16) (position : Nat) : BitVec 16 :=
  p ^^^ (if p.getLsbD position then 0x1B#16 <<< (position - 8) else 0#16)

/-- `gf256_mul_entry`. -/
def gf256MulEntry (a b : BitVec 8) : BitVec 8 :=
  ([14, 13, 12, 11, 10, 9, 8].foldl foldBit (carrylessProduct a b)).setWidth 8

theorem foldBit_linear (position : Nat) : Linear (foldBit · position) :=
  Linear.xor (fun _ _ => rfl) (.select position _)

/-- The table entry is the product modulo the AES polynomial. -/
theorem gf256MulEntry_eq (a b : BitVec 8) : gf256MulEntry a b = Residue.mul 0x1B#8 a b := by
  have reduce : Linear (fun p : BitVec 16 =>
      ([14, 13, 12, 11, 10, 9, 8].foldl foldBit p).setWidth 8) :=
    Linear.setWidth.comp (Linear.foldl foldBit_linear _)
  refine Residue.reduce_product 0x1B#8 (by decide) reduce ?_ ?_ a b
  · decide +kernel
  · decide +kernel

theorem gf256MulEntry_linear_left (b : BitVec 8) : Linear (gf256MulEntry · b) := by
  simp only [gf256MulEntry_eq]
  exact Residue.mul_linear_left 0x1B#8 b

theorem gf256MulEntry_linear_right (a : BitVec 8) : Linear (gf256MulEntry a) := by
  intro x y
  simp only [gf256MulEntry_eq]
  exact Residue.mul_linear_right 0x1B#8 a x y

theorem gf256MulEntry_comm (a b : BitVec 8) : gf256MulEntry a b = gf256MulEntry b a := by
  rw [gf256MulEntry_eq, gf256MulEntry_eq, Residue.mul_comm]

theorem gf256MulEntry_assoc (a b c : BitVec 8) :
    gf256MulEntry (gf256MulEntry a b) c = gf256MulEntry a (gf256MulEntry b c) := by
  simp only [gf256MulEntry_eq, Residue.mul_assoc]

theorem gf256MulEntry_one (a : BitVec 8) : gf256MulEntry 1#8 a = a := by
  rw [gf256MulEntry_eq, Residue.one_mul]

/-- The entry of `GF256_INV_TABLE`: the first byte whose product is one. -/
def gf256InvEntry (a : BitVec 8) : BitVec 8 :=
  ((List.range 256).map (BitVec.ofNat 8)).find? (fun b => gf256MulEntry a b = 1#8) |>.getD 0#8

/-- The inverses, listed. -/
def inverseBytes : List Nat :=
  [0, 1, 141, 246, 203, 82, 123, 209, 232, 79, 41, 192, 176, 225, 229, 199, 116, 180, 170, 75,
    153, 43, 96, 95, 88, 63, 253, 204, 255, 64, 238, 178, 58, 110, 90, 241, 85, 77, 168, 201, 193,
    10, 152, 21, 48, 68, 162, 194, 44, 69, 146, 108, 243, 57, 102, 66, 242, 53, 32, 111, 119, 187,
    89, 25, 29, 254, 55, 103, 45, 49, 245, 105, 167, 100, 171, 19, 84, 37, 233, 9, 237, 92, 5,
    202, 76, 36, 135, 191, 24, 62, 34, 240, 81, 236, 97, 23, 22, 94, 175, 211, 73, 166, 54, 67,
    244, 71, 145, 223, 51, 147, 33, 59, 121, 183, 151, 133, 16, 181, 186, 60, 182, 112, 208, 6,
    161, 250, 129, 130, 131, 126, 127, 128, 150, 115, 190, 86, 155, 158, 149, 217, 247, 2, 185,
    164, 222, 106, 50, 109, 216, 138, 132, 114, 42, 20, 159, 136, 249, 220, 137, 154, 251, 124,
    46, 195, 143, 184, 101, 72, 38, 200, 18, 74, 206, 231, 210, 98, 12, 224, 31, 239, 17, 117,
    120, 113, 165, 142, 118, 61, 189, 188, 134, 87, 11, 40, 47, 163, 218, 212, 228, 15, 169, 39,
    83, 4, 27, 252, 172, 230, 122, 7, 174, 99, 197, 219, 226, 234, 148, 139, 196, 213, 157, 248,
    144, 107, 177, 13, 214, 235, 198, 14, 207, 173, 8, 78, 215, 227, 93, 80, 30, 179, 91, 35, 56,
    52, 104, 70, 3, 140, 221, 156, 125, 160, 205, 26, 65, 28]

theorem gf256MulEntry_inverseBytes (a : Fin 256) (other : a ≠ 0) :
    gf256MulEntry (BitVec.ofFin a) (BitVec.ofNat 8 (inverseBytes.getD a 0)) = 1#8 := by
  have table : ∀ a : Fin 256, a ≠ 0 →
      Residue.mulNat 8 0x1B 8 a (inverseBytes.getD a 0 % 256) = 1 := by
    decide +kernel
  apply BitVec.eq_of_toNat_eq
  rw [gf256MulEntry_eq, Residue.toNat_mul 0x1B#8 (by decide)]
  exact table a other

theorem mul_gf256InvEntry {a : BitVec 8} (other : a ≠ 0#8) :
    gf256MulEntry a (gf256InvEntry a) = 1#8 := by
  have listed := gf256MulEntry_inverseBytes a.toFin (fun zero => other (BitVec.eq_of_toFin_eq zero))
  have byte (b : BitVec 8) : b ∈ (List.range 256).map (BitVec.ofNat 8) :=
    List.mem_map.mpr ⟨b.toNat, List.mem_range.mpr b.isLt, by simp⟩
  rcases search : ((List.range 256).map (BitVec.ofNat 8)).find?
      (fun b => gf256MulEntry a b = 1#8) with _ | first
  · exact absurd listed (by simpa using List.find?_eq_none.mp search _ (byte _))
  · rw [gf256InvEntry, search]
    simpa using List.find?_some search

namespace Block8

instance : Zero Block8 := ⟨⟨0#8⟩⟩

instance : One Block8 := ⟨⟨1#8⟩⟩

instance : Add Block8 := ⟨fun x y => ⟨x.bits ^^^ y.bits⟩⟩

instance : Neg Block8 := ⟨id⟩

instance : Mul Block8 := ⟨fun x y => ⟨gf256MulEntry x.bits y.bits⟩⟩

theorem add_eq (x y : Block8) : x + y = ⟨x.bits ^^^ y.bits⟩ := rfl

theorem mul_eq (x y : Block8) : x * y = ⟨gf256MulEntry x.bits y.bits⟩ := rfl

theorem zero_eq : (0 : Block8) = ⟨0#8⟩ := rfl

theorem one_eq : (1 : Block8) = ⟨1#8⟩ := rfl

instance : CommRing Block8 where
  add_assoc x y z := by simp [add_eq, BitVec.xor_assoc]
  zero_add x := by simp [add_eq, zero_eq]
  add_zero x := by simp [add_eq, zero_eq]
  add_comm x y := by simp [add_eq, BitVec.xor_comm]
  left_distrib x y z := by
    simp only [add_eq, mul_eq, Block8.mk.injEq]
    exact gf256MulEntry_linear_right _ _ _
  right_distrib x y z := by
    simp only [add_eq, mul_eq, Block8.mk.injEq]
    exact gf256MulEntry_linear_left _ _ _
  zero_mul x := by
    simp only [mul_eq, zero_eq, Block8.mk.injEq]
    exact (gf256MulEntry_linear_left _).map_zero
  mul_zero x := by
    simp only [mul_eq, zero_eq, Block8.mk.injEq]
    exact (gf256MulEntry_linear_right _).map_zero
  mul_assoc x y z := by simp only [mul_eq, gf256MulEntry_assoc]
  one_mul x := by simp only [mul_eq, one_eq, gf256MulEntry_one]
  mul_one x := by simp only [mul_eq, one_eq, gf256MulEntry_comm x.bits, gf256MulEntry_one]
  neg_add_cancel x := by
    change (⟨x.bits ^^^ x.bits⟩ : Block8) = 0
    rw [BitVec.xor_self]
    rfl
  mul_comm x y := by simp only [mul_eq, gf256MulEntry_comm x.bits]
  nsmul := nsmulRec
  zsmul := zsmulRec

instance : CharP Block8 2 :=
  CharTwo.of_one_ne_zero_of_two_eq_zero (by decide) (by decide)

instance : Field Block8 where
  inv x := ⟨gf256InvEntry x.bits⟩
  exists_pair_ne := ⟨0, 1, by decide⟩
  mul_inv_cancel x other := by
    have nonzero : x.bits ≠ 0#8 := fun zero => other (Block8.ext zero)
    exact Block8.ext (mul_gf256InvEntry nonzero)
  inv_zero := by decide +kernel
  nnqsmul := _
  nnqsmul_def := fun _ _ => rfl
  qsmul := _
  qsmul_def := fun _ _ => rfl

instance : Fintype Block8 :=
  .ofEquiv (Fin 256) {
    toFun := fun value => ⟨BitVec.ofFin value⟩
    invFun := fun x => x.bits.toFin
    left_inv := fun _ => rfl
    right_inv := fun _ => rfl }

/-- `EXTENSION_TAU` of `Block8`. -/
def tau : Block8 := ⟨0x20#8⟩

instance : Rootless tau where
  root_ne := by decide +kernel

end Block8

/-! ## The levels

Each level is a type of its own with one field instance, so that no instance search descends the
tower. The constant of a level sits in the upper half of the constant of the next. -/

/-- GF(2^16), with the halves of the packed word. -/
def Block16 : Type := Quadratic Block8 Block8.tau
  deriving DecidableEq

instance : Field Block16 := inferInstanceAs (Field (Quadratic Block8 Block8.tau))

instance : CharP Block16 2 := inferInstanceAs (CharP (Quadratic Block8 Block8.tau) 2)

instance : Fintype Block16 := inferInstanceAs (Fintype (Quadratic Block8 Block8.tau))

/-- `Block16::TAU`. -/
def Block16.tau : Block16 := ⟨0, Block8.tau⟩

instance : Rootless Block16.tau :=
  inferInstanceAs (Rootless (⟨0, Block8.tau⟩ : Quadratic Block8 Block8.tau))

/-- GF(2^32). -/
def Block32 : Type := Quadratic Block16 Block16.tau
  deriving DecidableEq

instance : Field Block32 := inferInstanceAs (Field (Quadratic Block16 Block16.tau))

instance : CharP Block32 2 := inferInstanceAs (CharP (Quadratic Block16 Block16.tau) 2)

instance : Fintype Block32 := inferInstanceAs (Fintype (Quadratic Block16 Block16.tau))

/-- `Block32::TAU`. -/
def Block32.tau : Block32 := ⟨0, Block16.tau⟩

instance : Rootless Block32.tau :=
  inferInstanceAs (Rootless (⟨0, Block16.tau⟩ : Quadratic Block16 Block16.tau))

/-- GF(2^64). -/
def Block64 : Type := Quadratic Block32 Block32.tau
  deriving DecidableEq

instance : Field Block64 := inferInstanceAs (Field (Quadratic Block32 Block32.tau))

instance : CharP Block64 2 := inferInstanceAs (CharP (Quadratic Block32 Block32.tau) 2)

instance : Fintype Block64 := inferInstanceAs (Fintype (Quadratic Block32 Block32.tau))

/-- `Block64::TAU`. -/
def Block64.tau : Block64 := ⟨0, Block32.tau⟩

instance : Rootless Block64.tau :=
  inferInstanceAs (Rootless (⟨0, Block32.tau⟩ : Quadratic Block32 Block32.tau))

/-- GF(2^128), the anchor field. -/
def Block128 : Type := Quadratic Block64 Block64.tau
  deriving DecidableEq

instance : Field Block128 := inferInstanceAs (Field (Quadratic Block64 Block64.tau))

instance : CharP Block128 2 := inferInstanceAs (CharP (Quadratic Block64 Block64.tau) 2)

instance : Fintype Block128 := inferInstanceAs (Fintype (Quadratic Block64 Block64.tau))

/-- `Block128::TAU`. -/
def Block128.tau : Block128 := ⟨0, Block64.tau⟩

instance : Rootless Block128.tau :=
  inferInstanceAs (Rootless (⟨0, Block64.tau⟩ : Quadratic Block64 Block64.tau))

/-- GF(2^256), the challenge field. -/
abbrev Block256 := Quadratic Block128 Block128.tau

/-- The constant of the top level has no root, so it is not zero. -/
theorem Block128.tau_ne_zero : Block128.tau ≠ 0 := by
  intro zero
  have root : (0 : Block128) * 0 + 0 = Block128.tau := by rw [zero, mul_zero, add_zero]
  exact Rootless.root_ne 0 root

/-- `Block256::from_raw_challenge_lanes`. -/
def Block256.fromRawChallengeLanes (lo rawHi : Block128) : Block256 :=
  ⟨lo, rawHi * rawHi + rawHi + Block128.tau⟩

/-- A challenge is never in the base subfield. -/
theorem Block256.fromRawChallengeLanes_hi (lo rawHi : Block128) :
    (fromRawChallengeLanes lo rawHi).hi ≠ 0 := by
  intro zero
  refine Rootless.root_ne rawHi (?_ : _ = Block128.tau)
  exact CharTwo.add_eq_zero.mp zero

/-- The challenge from two zero lanes. -/
def zeroChallenge : Block256 := Block256.fromRawChallengeLanes 0 0

/-- Its conjugate, also a challenge. -/
def conjugateChallenge : Block256 := Block256.fromRawChallengeLanes Block128.tau 0

theorem zeroChallenge_eq : zeroChallenge = ⟨0, Block128.tau⟩ := by
  simp [zeroChallenge, Block256.fromRawChallengeLanes]

theorem conjugateChallenge_eq : conjugateChallenge = ⟨Block128.tau, Block128.tau⟩ := by
  simp [conjugateChallenge, Block256.fromRawChallengeLanes]

theorem zeroChallenge_ne_zero : zeroChallenge ≠ 0 := by
  intro zero
  have high := congrArg Quadratic.hi zero
  rw [zeroChallenge_eq] at high
  exact Block128.tau_ne_zero high

/-- The two challenges are conjugate: their sum is of the base field. -/
theorem challenges_add : zeroChallenge + conjugateChallenge =
    algebraMap Block128 Block256 Block128.tau := by
  rw [zeroChallenge_eq, conjugateChallenge_eq]
  refine Quadratic.ext ?_ ?_
  · exact zero_add _
  · exact CharTwo.add_self_eq_zero _

/-- And so is their product. -/
theorem challenges_mul : zeroChallenge * conjugateChallenge =
    algebraMap Block128 Block256 (Block128.tau * Block128.tau * Block128.tau) := by
  refine Quadratic.ext ?_ ?_
  · simp only [zeroChallenge_eq, conjugateChallenge_eq, Quadratic.mul_lo, Quadratic.algebraMap_lo]
    ring
  · simp only [zeroChallenge_eq, conjugateChallenge_eq, Quadratic.mul_hi, Quadratic.algebraMap_hi]
    linear_combination Block128.tau * Block128.tau * (CharTwo.two_eq_zero : (2 : Block128) = 0)

end ParanoidChain.Tower
