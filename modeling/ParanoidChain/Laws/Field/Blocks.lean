import Mathlib.Algebra.Field.TransferInstance
import Mathlib.Data.Set.Card
import Mathlib.RingTheory.SimpleRing.Basic
import ParanoidChain.Field.Blocks

/-!
# The packed words are the tower of fields

Each level represents a field of `Field/Tower`: a word is the code of its two halves, and the product,
the square and the inverse of the source are those of the field. One step carries this from a level to
the next, so it holds up to `Block128` and, with the halves apart, for `Block256`. The `From`
conversions are the inclusions of the fields, and the challenge map misses the base field and takes
every value twice.
-/

namespace ParanoidChain.Blocks

open Lib

/-! ## What is shown -/

/-- A commutative field under the functions of the source. -/
structure IsCommutativeField {α : Type} (level : TowerField α) : Prop where
  field : ∃ _ : Field α, (0 : α) = level.zero ∧ (1 : α) = level.one ∧
    (∀ a b : α, a + b = level.add a b) ∧ ∀ a b : α, a * b = level.mul a b
  square_eq : ∀ a, level.square a = level.mul a a
  invert_mul : ∀ a, a ≠ level.zero → level.mul (level.invert a) a = level.one
  invert_zero : level.invert level.zero = level.zero

/-- An injective ring homomorphism. -/
structure Embeds {α β : Type} (lower : Arithmetic α) (upper : Arithmetic β) (f : α → β) : Prop where
  injective : Function.Injective f
  map_zero : f lower.zero = upper.zero
  map_one : f lower.one = upper.one
  map_add : ∀ a b, f (lower.add a b) = upper.add (f a) (f b)
  map_mul : ∀ a b, f (lower.mul a b) = upper.mul (f a) (f b)

theorem Embeds.trans {α β γ : Type} {lower : Arithmetic α} {middle : Arithmetic β}
    {upper : Arithmetic γ} {f : α → β} {g : β → γ} (first : Embeds lower middle f)
    (second : Embeds middle upper g) : Embeds lower upper (fun a => g (f a)) where
  injective := second.injective.comp first.injective
  map_zero := by rw [first.map_zero, second.map_zero]
  map_one := by rw [first.map_one, second.map_one]
  map_add a b := by rw [first.map_add, second.map_add]
  map_mul a b := by rw [first.map_mul, second.map_mul]

/-! ## Codes of a field -/

/-- The words of a level are codes of the elements of a field, and the level computes on codes. -/
structure Represents {α : Type} (level : TowerField α) (F : Type) [Field F] (tau : F) where
  code : F ≃ α
  zero : code 0 = level.zero
  one : code 1 = level.one
  add : ∀ x y, code (x + y) = level.add (code x) (code y)
  mul : ∀ x y, code (x * y) = level.mul (code x) (code y)
  extensionTau : code tau = level.extensionTau
  square : ∀ x, code (x * x) = level.square (code x)
  invert : ∀ x, code x⁻¹ = level.invert (code x)

namespace Represents

variable {α F : Type} {level : TowerField α} [Field F] {tau : F}

/-- What represents a field is one. -/
theorem isCommutativeField (self : Represents level F tau) : IsCommutativeField level where
  field := by
    refine ⟨self.code.symm.field, self.zero, self.one, ?_, ?_⟩
    · intro a b
      obtain ⟨x, rfl⟩ := self.code.surjective a
      obtain ⟨y, rfl⟩ := self.code.surjective b
      rw [← self.add, Equiv.add_def]
      simp
    · intro a b
      obtain ⟨x, rfl⟩ := self.code.surjective a
      obtain ⟨y, rfl⟩ := self.code.surjective b
      rw [← self.mul, Equiv.mul_def]
      simp
  square_eq a := by
    obtain ⟨x, rfl⟩ := self.code.surjective a
    rw [← self.square, self.mul]
  invert_mul a nonzero := by
    obtain ⟨x, rfl⟩ := self.code.surjective a
    have other : x ≠ 0 := fun same => nonzero (by rw [same, self.zero])
    rw [← self.invert, ← self.mul, inv_mul_cancel₀ other, self.one]
  invert_zero := by rw [← self.zero, ← self.invert, inv_zero]

/-- A field homomorphism is an embedding of the codes. -/
theorem embeds {β G : Type} {upper : TowerField β} [Field G] {top : G}
    (self : Represents level F tau) (other : Represents upper G top) (f : F →+* G) :
    Embeds level.toArithmetic upper.toArithmetic
      (fun a => other.code (f (self.code.symm a))) where
  injective := other.code.injective.comp (f.injective.comp self.code.symm.injective)
  map_zero := by rw [← self.zero, Equiv.symm_apply_apply, map_zero, other.zero]
  map_one := by rw [← self.one, Equiv.symm_apply_apply, map_one, other.one]
  map_add a b := by
    obtain ⟨x, rfl⟩ := self.code.surjective a
    obtain ⟨y, rfl⟩ := self.code.surjective b
    rw [← self.add, Equiv.symm_apply_apply, map_add, other.add]
    simp
  map_mul a b := by
    obtain ⟨x, rfl⟩ := self.code.surjective a
    obtain ⟨y, rfl⟩ := self.code.surjective b
    rw [← self.mul, Equiv.symm_apply_apply, map_mul, other.mul]
    simp

end Represents

/-! ## Halves of a word -/

section Halves

variable {w : Nat}

/-- A word of two halves is their concatenation, the upper half first. -/
theorem new_eq_append (lo hi : BitVec w) : new lo hi = hi ++ lo := by
  apply BitVec.eq_of_getLsbD_eq
  intro i inside
  simp only [new, BitVec.getLsbD_or, BitVec.getLsbD_shiftLeft, BitVec.getLsbD_setWidth,
    BitVec.getLsbD_append, inside, decide_true, Bool.true_and]
  by_cases low : i < w
  · simp [low]
  · have beyond : lo.getLsbD i = false := BitVec.getLsbD_of_ge lo i (by omega)
    have within : i - w < w + w := by omega
    simp [low, beyond, within]

/-- Splitting undoes the construction. -/
theorem split_new (lo hi : BitVec w) : split (new lo hi) = (lo, hi) := by
  rw [new_eq_append, split]
  congr 1
  · apply BitVec.eq_of_getLsbD_eq
    intro i inside
    simp [BitVec.getLsbD_append, inside]
  · apply BitVec.eq_of_getLsbD_eq
    intro i inside
    simp only [BitVec.getLsbD_setWidth, BitVec.getLsbD_ushiftRight, BitVec.getLsbD_append, inside]
    simp

/-- The construction undoes splitting. -/
theorem new_split (word : BitVec (w + w)) : new (split word).1 (split word).2 = word := by
  rw [new_eq_append, split]
  apply BitVec.eq_of_getLsbD_eq
  intro i inside
  rw [BitVec.getLsbD_append]
  by_cases low : i < w
  · simp [low]
  · have within : i - w < w := by omega
    have whole : w + (i - w) = i := by omega
    simp [low, within, whole]

theorem new_xor (lo hi lo' hi' : BitVec w) :
    new (lo ^^^ lo') (hi ^^^ hi') = new lo hi ^^^ new lo' hi' := by
  simp only [new_eq_append]
  exact BitVec.xor_append.symm

/-- An upper half of zero widens the lower one. -/
theorem new_zero (lo : BitVec w) : new lo 0#w = widen (w + w) lo := by
  simp [new, widen]

/-- The halves of a code are the codes of the halves. -/
def halves {F : Type} (code : F ≃ BitVec w) (tau : F) : Quadratic F tau ≃ BitVec (w + w) where
  toFun x := new (code x.lo) (code x.hi)
  invFun word := ⟨code.symm (split word).1, code.symm (split word).2⟩
  left_inv x := by simp [split_new]
  right_inv word := by simp [new_split]

theorem halves_apply {F : Type} (code : F ≃ BitVec w) (tau : F) (x : Quadratic F tau) :
    halves code tau x = new (code x.lo) (code x.hi) := rfl

end Halves

/-! ## From a level to the next -/

/-- A level whose addition is exclusive or. -/
structure Binary {w : Nat} (level : TowerField (BitVec w)) : Prop where
  zero : level.zero = 0#w
  one : level.one = 1#w
  add : ∀ a b, level.add a b = a ^^^ b

/-- An extension of a level adds bit by bit. -/
theorem extension_binary {w : Nat} (below : TowerField (BitVec w)) (tau : BitVec (w + w)) :
    Binary (extension below tau) where
  zero := rfl
  one := rfl
  add _ _ := rfl

theorem square_lo {F : Type} [Field F] [CharP F 2] {tau : F} (x : Quadratic F tau) :
    (x * x).lo = x.lo * x.lo + x.hi * x.hi * tau := Quadratic.mul_lo x x

theorem square_hi {F : Type} [Field F] [CharP F 2] {tau : F} (x : Quadratic F tau) :
    (x * x).hi = x.hi * x.hi := by
  rw [Quadratic.mul_hi, mul_comm x.hi x.lo, CharTwo.add_self_eq_zero, zero_add]

section Extension

variable {w : Nat} {below : TowerField (BitVec w)} {F : Type} [Field F] [CharP F 2] {tau : F}
  [Rootless tau] (self : Represents below F tau) (binary : Binary below) {top : BitVec (w + w)}
  (constant : top = new 0#w below.extensionTau)

/-- One step of the tower: the extended level represents the quadratic extension. -/
def Represents.extension : Represents (extension below top) (Quadratic F tau) ⟨0, tau⟩ where
  code := halves self.code tau
  zero := by
    simp only [halves_apply, Quadratic.zero_lo, Quadratic.zero_hi, self.zero, binary.zero]
    simp [Blocks.extension, new]
  one := by
    simp only [halves_apply, Quadratic.one_lo, Quadratic.one_hi, self.zero, self.one, binary.zero,
      binary.one]
    rw [new_zero]
    apply BitVec.eq_of_getLsbD_eq
    intro i inside
    simp only [Blocks.extension, widen, BitVec.getLsbD_setWidth, inside, decide_true,
      Bool.true_and, BitVec.getLsbD_one]
    by_cases first : 0 = i
    · subst first
      have positive : 0 < w := by omega
      simp [positive]
    · simp [Ne.symm first]
  add x y := by
    simp only [halves_apply, Quadratic.add_lo, Quadratic.add_hi, self.add, binary.add]
    exact new_xor ..
  mul x y := by
    simp only [Blocks.extension, karatsuba, halves_apply, split_new]
    rw [Quadratic.mul_lo, Quadratic.mul_karatsuba]
    simp only [self.add, self.mul, self.extensionTau]
  extensionTau := by
    simp only [halves_apply, self.zero, binary.zero, self.extensionTau, constant,
      Blocks.extension]
  square x := by
    simp only [Blocks.extension, frobenius, halves_apply, split_new]
    rw [square_lo, square_hi, self.add, self.mul _ tau, self.square, self.square,
      self.extensionTau]
  invert x := by
    simp only [Blocks.extension, invertByNorm, halves_apply, split_new]
    have inverse : x⁻¹ = ⟨(x.hi + x.lo) * x.norm⁻¹, x.hi * x.norm⁻¹⟩ := rfl
    simp only [inverse, Quadratic.norm, self.add, self.mul, self.invert, self.extensionTau]

/-- The words of the lower level with zeros above are the base of the extension. -/
theorem Represents.extension_ofBase (x : F) :
    (self.extension binary constant).code (Quadratic.ofBase x) = widen (w + w) (self.code x) := by
  have halved : (self.extension binary constant).code (Quadratic.ofBase x) =
      new (self.code x) (self.code 0) := rfl
  rw [halved, self.zero, binary.zero, new_zero]

include self binary constant in
/-- The step from a level to the next. -/
theorem Represents.embeds_extension :
    Embeds below.toArithmetic (Blocks.extension below top).toArithmetic (widen (w + w)) := by
  have inclusion := self.embeds (self.extension binary constant) Quadratic.ofBase
  have same : (fun a => (self.extension binary constant).code
      (Quadratic.ofBase (self.code.symm a))) = widen (w + w) := by
    funext a
    rw [self.extension_ofBase, Equiv.apply_symm_apply]
  exact same ▸ inclusion

end Extension

/-! ## The levels -/

theorem block8_binary : Binary block8 where
  zero := rfl
  one := rfl
  add _ _ := rfl

/-- `Block8` by its byte. -/
def block8Represents : Represents block8 Tower.Block8 Tower.Block8.tau where
  code := {
    toFun := Tower.Block8.bits
    invFun := Tower.Block8.mk
    left_inv := fun _ => rfl
    right_inv := fun _ => rfl }
  zero := rfl
  one := rfl
  add _ _ := rfl
  mul _ _ := rfl
  extensionTau := rfl
  square _ := rfl
  invert _ := rfl

def block16Represents : Represents block16 Tower.Block16 Tower.Block16.tau :=
  block8Represents.extension block8_binary (by decide)

def block32Represents : Represents block32 Tower.Block32 Tower.Block32.tau :=
  block16Represents.extension (extension_binary ..) (by decide)

def block64Represents : Represents block64 Tower.Block64 Tower.Block64.tau :=
  block32Represents.extension (extension_binary ..) (by decide)

def block128Represents : Represents block128 Tower.Block128 Tower.Block128.tau :=
  block64Represents.extension (extension_binary ..) (by decide)

/-- `Block256` by the codes of its halves. -/
def block256Represents : Represents block256 Tower.Block256 ⟨0, Tower.Block128.tau⟩ where
  code := {
    toFun := fun x => ⟨block128Represents.code x.lo, block128Represents.code x.hi⟩
    invFun := fun block => ⟨block128Represents.code.symm block.lo,
      block128Represents.code.symm block.hi⟩
    left_inv := fun x => by simp
    right_inv := fun block => by simp }
  zero := by
    apply Block256.ext
    · exact block128Represents.zero
    · exact block128Represents.zero
  one := by
    apply Block256.ext
    · exact block128Represents.one
    · exact block128Represents.zero
  add x y := by
    apply Block256.ext
    · exact block128Represents.add x.lo y.lo
    · exact block128Represents.add x.hi y.hi
  mul x y := by
    simp only [Equiv.coe_fn_mk, block256, Block256.mul]
    rw [Quadratic.mul_lo, Quadratic.mul_karatsuba]
    simp only [block128Represents.add, block128Represents.mul, block128Represents.extensionTau]
  extensionTau := by
    apply Block256.ext
    · exact block128Represents.zero
    · exact block128Represents.extensionTau
  square x := by
    simp only [Equiv.coe_fn_mk, block256, Block256.square]
    rw [square_lo, square_hi, block128Represents.add, block128Represents.mul _ Tower.Block128.tau,
      block128Represents.square, block128Represents.square, block128Represents.extensionTau]
  invert x := by
    simp only [Equiv.coe_fn_mk, block256, Block256.invert]
    have inverse : x⁻¹ = ⟨(x.hi + x.lo) * x.norm⁻¹, x.hi * x.norm⁻¹⟩ := rfl
    simp only [inverse, Quadratic.norm, block128Represents.add, block128Represents.mul,
      block128Represents.invert, block128Represents.extensionTau, ← block128Represents.square]

/-- Every level of the tower is a field. -/
theorem Level.isCommutativeField (level : Level) : IsCommutativeField level.field := by
  cases level
  · exact block8Represents.isCommutativeField
  · exact block16Represents.isCommutativeField
  · exact block32Represents.isCommutativeField
  · exact block64Represents.isCommutativeField
  · exact block128Represents.isCommutativeField

/-! ## The embeddings -/

theorem widen_widen {u : Nat} (v w : Nat) (word : BitVec u) (inside : u ≤ v) :
    widen w (widen v word) = widen w word := by
  apply BitVec.eq_of_getLsbD_eq
  intro i bound
  simp only [widen, BitVec.getLsbD_setWidth]
  by_cases low : i < v
  · simp [low]
  · simp [low, BitVec.getLsbD_of_ge word i (by omega)]

theorem block8_embeds_block16 : Embeds block8.toArithmetic block16.toArithmetic (widen 16) :=
  block8Represents.embeds_extension block8_binary (by decide)

theorem block16_embeds_block32 : Embeds block16.toArithmetic block32.toArithmetic (widen 32) :=
  block16Represents.embeds_extension (extension_binary ..) (by decide)

theorem block32_embeds_block64 : Embeds block32.toArithmetic block64.toArithmetic (widen 64) :=
  block32Represents.embeds_extension (extension_binary ..) (by decide)

theorem block64_embeds_block128 : Embeds block64.toArithmetic block128.toArithmetic (widen 128) :=
  block64Represents.embeds_extension (extension_binary ..) (by decide)

/-- Widening twice is an embedding where both steps are. -/
theorem Embeds.widen {u v w : Nat} {lower : Arithmetic (BitVec u)} {middle : Arithmetic (BitVec v)}
    {upper : Arithmetic (BitVec w)} (first : Embeds lower middle (widen v))
    (second : Embeds middle upper (Blocks.widen w)) (inside : u ≤ v) :
    Embeds lower upper (Blocks.widen w) := by
  have composed := first.trans second
  have same : (fun a : BitVec u => Blocks.widen w (Blocks.widen v a)) = Blocks.widen w := by
    funext a
    exact widen_widen v w a inside
  exact same ▸ composed

/-- Every `From` between the levels in one word. -/
theorem Level.embeds (lower upper : Level) (below : lower.bits < upper.bits) :
    Embeds lower.field.toArithmetic upper.field.toArithmetic (widen upper.bits) := by
  have block16_embeds_block64 := block16_embeds_block32.widen block32_embeds_block64 (by decide)
  have block32_embeds_block128 := block32_embeds_block64.widen block64_embeds_block128 (by decide)
  have block16_embeds_block128 := block16_embeds_block32.widen block32_embeds_block128 (by decide)
  cases lower <;> cases upper <;> try exact absurd below (by decide)
  · exact block8_embeds_block16
  · exact block8_embeds_block16.widen block16_embeds_block32 (by decide)
  · exact block8_embeds_block16.widen block16_embeds_block64 (by decide)
  · exact block8_embeds_block16.widen block16_embeds_block128 (by decide)
  · exact block16_embeds_block32
  · exact block16_embeds_block64
  · exact block16_embeds_block128
  · exact block32_embeds_block64
  · exact block32_embeds_block128
  · exact block64_embeds_block128

/-- The bits are the prime field of the lowest level. -/
theorem bit_embeds_block8 : Embeds bit block8.toArithmetic (widen 8) where
  injective a b same := by
    revert a b
    decide
  map_zero := rfl
  map_one := rfl
  map_add := by decide
  map_mul := by decide

/-- Every `From<Bit>`. -/
theorem Level.bit_embeds (level : Level) :
    Embeds bit level.field.toArithmetic (widen level.bits) := by
  by_cases above : Level.block8.bits < level.bits
  · exact bit_embeds_block8.widen (Level.embeds .block8 level above) (by decide)
  · cases level <;> first | exact bit_embeds_block8 | exact absurd (by decide) above

/-- `From<Block128>`. -/
theorem block128_embeds_block256 :
    Embeds block128.toArithmetic block256.toArithmetic Block256.fromBase := by
  have inclusion := block128Represents.embeds block256Represents Quadratic.ofBase
  have same : (fun a => block256Represents.code (Quadratic.ofBase (block128Represents.code.symm a))) =
      Block256.fromBase := by
    funext a
    apply Block256.ext
    · exact Equiv.apply_symm_apply ..
    · exact block128Represents.zero
  exact same ▸ inclusion

/-- Every `From` of one word into `Block256`. -/
theorem Level.embeds_block256 (lower : Level) :
    Embeds lower.field.toArithmetic block256.toArithmetic
      (fun value => Block256.fromBase (widen 128 value)) := by
  by_cases below : lower.bits < Level.block128.bits
  · exact (Level.embeds lower .block128 below).trans block128_embeds_block256
  · cases lower
    case block128 =>
      have same : (fun value : BitVec 128 => Block256.fromBase (widen 128 value)) =
          Block256.fromBase := by
        funext value
        rw [widen, BitVec.setWidth_eq]
      exact same ▸ block128_embeds_block256
    all_goals exact absurd (by decide) below

/-! ## Challenges -/

/-- The upper lane of a challenge, in the field it stands for. -/
theorem code_rawHi (lo : BitVec 128) (y : Tower.Block128) :
    Block256.fromRawChallengeLanes lo (block128Represents.code y) =
      ⟨lo, block128Represents.code (y * y + y + Tower.Block128.tau)⟩ := by
  rw [block128Represents.add, block128Represents.add, block128Represents.square,
    block128Represents.extensionTau]
  rfl

/-- A challenge is never in the base subfield. -/
theorem fromRawChallengeLanes_notInBase (lo rawHi : BitVec 128) :
    (Block256.fromRawChallengeLanes lo rawHi).isInBaseSubfield = false := by
  obtain ⟨y, rfl⟩ := block128Represents.code.surjective rawHi
  rw [code_rawHi, Block256.isInBaseSubfield, beq_eq_false_iff_ne]
  intro flat
  have zero : y * y + y + Tower.Block128.tau = 0 :=
    block128Represents.code.injective (flat.trans block128Represents.zero.symm)
  exact Rootless.root_ne y (CharTwo.add_eq_zero.mp zero)

/-- Two roots of `y * y + y` differ by one. -/
theorem mul_self_add_eq_iff {F : Type} [Field F] [CharP F 2] (y z : F) :
    y * y + y = z * z + z ↔ y = z ∨ y = z + 1 := by
  have two : (2 : F) = 0 := CharTwo.two_eq_zero
  have factored : (y + z) * (y + z + 1) = (y * y + y) + (z * z + z) := by
    linear_combination y * z * two
  rw [← CharTwo.add_eq_zero, ← factored, mul_eq_zero, CharTwo.add_eq_zero, add_assoc,
    CharTwo.add_eq_zero]

/-- Two raw lanes give one challenge exactly when they differ by one. -/
theorem fromRawChallengeLanes_eq_iff (lo raw raw' : BitVec 128) :
    Block256.fromRawChallengeLanes lo raw' = Block256.fromRawChallengeLanes lo raw ↔
      raw' = raw ∨ raw' = raw ^^^ 1#128 := by
  obtain ⟨y, rfl⟩ := block128Represents.code.surjective raw
  obtain ⟨z, rfl⟩ := block128Represents.code.surjective raw'
  have shifted : block128Represents.code y ^^^ 1#128 = block128Represents.code (y + 1) := by
    rw [block128Represents.add, block128Represents.one]
    rfl
  rw [code_rawHi, code_rawHi, shifted, block128Represents.code.apply_eq_iff_eq,
    block128Represents.code.apply_eq_iff_eq, Block256.mk.injEq, and_iff_right rfl,
    block128Represents.code.apply_eq_iff_eq, add_left_inj, mul_self_add_eq_iff]

/-- So every challenge comes from two raw lanes. -/
theorem fromRawChallengeLanes_fibre (lo raw : BitVec 128) :
    {raw' | Block256.fromRawChallengeLanes lo raw' = Block256.fromRawChallengeLanes lo raw} =
      {raw, raw ^^^ 1#128} := by
  ext raw'
  exact fromRawChallengeLanes_eq_iff lo raw raw'

/-- The levels are fields, each embedded in the higher ones by widening. -/
theorem tower_of_fields :
    (∀ level : Level, IsCommutativeField level.field) ∧ IsCommutativeField block256 ∧
    (∀ lower upper : Level, lower.bits < upper.bits →
      Embeds lower.field.toArithmetic upper.field.toArithmetic (widen upper.bits)) ∧
    (∀ lower : Level, Embeds lower.field.toArithmetic block256.toArithmetic
      (fun value => Block256.fromBase (widen 128 value))) ∧
    (∀ level : Level, Embeds bit level.field.toArithmetic (widen level.bits)) ∧
    Embeds bit block256.toArithmetic (fun value => Block256.fromBase (widen 128 value)) ∧
    (∀ lo rawHi, (Block256.fromRawChallengeLanes lo rawHi).isInBaseSubfield = false) ∧
    (∀ lo, ∀ value ∈ Set.range (Block256.fromRawChallengeLanes lo),
      Set.ncard {rawHi | Block256.fromRawChallengeLanes lo rawHi = value} = 2) := by
  refine ⟨Level.isCommutativeField, block256Represents.isCommutativeField, Level.embeds,
    Level.embeds_block256, Level.bit_embeds,
    (Level.bit_embeds .block128).trans block128_embeds_block256,
    fromRawChallengeLanes_notInBase, ?_⟩
  rintro lo value ⟨raw, rfl⟩
  rw [fromRawChallengeLanes_fibre, Set.ncard_pair]
  intro same
  have bit := congrArg (BitVec.getLsbD · 0) same
  simp at bit

end ParanoidChain.Blocks
