import ParanoidChain.Field.Rounds
import ParanoidChain.Laws.Field.Hardware

/-!
# Subfields of the permutation

A map that respects the arithmetic and the constants carries the permutation over. The flat basis is
such a map from every level that holds the constants, so on words of that level the permutation stays
in the level: all constants are below `2^16`, and only the words of `Block8` are left.
-/

namespace ParanoidChain.Poseidon2b

open Lib

/-! ## Simulation -/

/-- The constants of the rounds are small. -/
def constantBound : Nat := 65536

/-- A map between two arithmetics that respects them and the small constants. -/
structure Simulates {α β : Type} (f : α → β) (source : RoundOps α) (target : RoundOps β) :
    Prop where
  zero : f source.zero = target.zero
  add : ∀ a b, f (source.add a b) = target.add (f a) (f b)
  mul : ∀ a b, f (source.mul a b) = target.mul (f a) (f b)
  constant : ∀ c < constantBound, f (source.constant c) = target.constant c

theorem mdsFull_lt : ∀ i j, mdsFull i j < constantBound := by decide

theorem mdsPartial_lt : ∀ i j, mdsPartial i j < constantBound := by decide

theorem roundConstants_lt (i : Fin 4) (r : Nat) : roundConstants i r < constantBound := by
  have rows : ∀ row ∈ roundConstantRows, ∀ c ∈ row, c < constantBound := by decide +kernel
  unfold roundConstants
  rw [List.getD_eq_getElem?_getD, List.getD_eq_getElem?_getD]
  rcases found : roundConstantRows[i.val]? with _ | row
  · simp [constantBound]
  · rcases entry : row[r]? with _ | c
    · simp [entry, constantBound]
    · simpa [entry] using rows row (List.mem_of_getElem? found) c (List.mem_of_getElem? entry)

namespace Simulates

variable {α β : Type} {f : α → β} {source : RoundOps α} {target : RoundOps β}

section

variable (self : Simulates f source target)
include self

theorem applyMds {mds : Fin 4 → Fin 4 → Nat} (small : ∀ i j, mds i j < constantBound)
    (state : Fin 4 → α) :
    (fun i => f (source.applyMds mds state i)) = target.applyMds mds (fun i => f (state i)) := by
  funext i
  have loop : ∀ (lanes : List (Fin 4)) (out : α),
      f (lanes.foldl (fun out j => if mds i j = 1 then source.add out (state j)
        else source.add out (source.mul (state j) (source.constant (mds i j)))) out) =
      lanes.foldl (fun out j => if mds i j = 1 then target.add out (f (state j))
        else target.add out (target.mul (f (state j)) (target.constant (mds i j)))) (f out) := by
    intro lanes
    induction lanes with
    | nil => exact fun _ => rfl
    | cons j rest ih =>
      intro out
      rw [List.foldl_cons, List.foldl_cons, ih]
      congr 1
      split
      · exact self.add ..
      · rw [self.add, self.mul, self.constant _ (small i j)]
  rw [RoundOps.applyMds, loop, self.zero]
  rfl

theorem sboxX7 (x : α) :
    f (source.sboxX7 x) = target.sboxX7 (f x) := by
  simp only [RoundOps.sboxX7, self.mul]

theorem round (state : Fin 4 → α) (r : Nat) :
    (fun i => f (source.round state r i)) = target.round (fun i => f (state i)) r := by
  unfold RoundOps.round
  split
  · rw [self.applyMds mdsFull_lt]
    simp only [self.sboxX7, self.add, self.constant _ (roundConstants_lt _ _)]
  · rw [self.applyMds mdsPartial_lt]
    congr 1
    funext i
    by_cases first : i = 0
    · subst first
      simp only [Function.update_self, self.sboxX7, self.add,
        self.constant _ (roundConstants_lt _ _)]
    · simp only [Function.update_of_ne first]

/-- The map carries the permutation over. -/
theorem permute (state : Fin 4 → α) :
    (fun i => f (source.permute state i)) = target.permute (fun i => f (state i)) := by
  have rounds : ∀ (list : List Nat) (state : Fin 4 → α),
      (fun i => f (list.foldl source.round state i)) =
        list.foldl target.round (fun i => f (state i)) := by
    intro list
    induction list with
    | nil => exact fun _ => rfl
    | cons r rest ih =>
      intro state
      rw [List.foldl_cons, List.foldl_cons, ih, self.round]
  unfold RoundOps.permute
  rw [rounds, self.applyMds mdsFull_lt]

end

end Simulates

/-- The flat permutation is the permutation of the flat arithmetic. -/
theorem permuteFlatU128_eq (state : Fin 4 → BitVec 128) :
    permuteFlatU128 state = flatOps.permute state := by
  have sbox : sboxX7FlatU128 = flatOps.sboxX7 := by
    funext x
    simp only [sboxX7FlatU128, RoundOps.sboxX7, flatOps, mulFlat, squareFlatU128_eq, ghashMul_eq,
      Hardware.clmulGcm_eq_residue]
  have round : roundFlat = flatOps.round := by
    funext state r
    unfold roundFlat RoundOps.round
    rw [sbox]
    rfl
  unfold permuteFlatU128 RoundOps.permute
  rw [round]
  rfl

/-! ## The levels -/

open Blocks (Level widen)

/-- The flat product of two flat words of any level is the flat word of their product. -/
theorem flat_mul (level : Level) (a b : BitVec level.bits) :
    Hardware.flat (level.field.mul a b) = Hardware.flat a * Hardware.flat b := by
  cases level
  · exact Hardware.flattenBlock8.mul a b
  · exact Hardware.flattenBlock16.mul a b
  · exact Hardware.flattenBlock32.mul a b
  · exact Hardware.flattenBlock64.mul a b
  · exact Hardware.flattenBlock128.mul a b

theorem level_binary (level : Level) : Blocks.Binary level.field := by
  cases level
  · exact Blocks.block8_binary
  all_goals exact Blocks.extension_binary ..

/-- The words of a level that holds the constants, in the flat basis. -/
theorem flat_simulates (level : Level) (holds : 16 ≤ level.bits) :
    Simulates (fun word => Hardware.towerToFlatU128 (widen 128 word)) (levelOps level.field)
      flatOps where
  zero := by
    have origin : (levelOps level.field).zero = BitVec.ofNat level.bits 0 := (level_binary level).zero
    rw [origin]
    exact (Hardware.towerToFlatU128_linear.comp Linear.setWidth).map_zero
  add a b := by
    have sum : (levelOps level.field).add a b = a ^^^ b := (level_binary level).add a b
    rw [sum]
    exact (Hardware.towerToFlatU128_linear.comp Linear.setWidth) a b
  mul a b := by
    have product := congrArg F128.bits (flat_mul level a b)
    exact product.trans (congrArg F128.bits (Hardware.clmulGcm_eq_mul .soft _ _)).symm
  constant c small := by
    have fits : c < 2 ^ level.bits := by
      calc c
        _ < 2 ^ 16 := small
        _ ≤ 2 ^ level.bits := Nat.pow_le_pow_right (by decide) holds
    have same : widen 128 (BitVec.ofNat level.bits c) = BitVec.ofNat 128 c := by
      apply BitVec.eq_of_toNat_eq
      rw [widen, BitVec.toNat_setWidth, BitVec.toNat_ofNat, BitVec.toNat_ofNat,
        Nat.mod_eq_of_lt fits]
    rw [levelOps, same]
    rfl

/-- The permutation of flat words of a level is the permutation of that level. -/
theorem permuteFlatU128_level (level : Level) (holds : 16 ≤ level.bits)
    (state : Fin 4 → BitVec level.bits) :
    permuteFlatU128 (fun i => Hardware.towerToFlatU128 (widen 128 (state i))) =
      fun i => Hardware.towerToFlatU128
        (widen 128 ((levelOps level.field).permute state i)) := by
  rw [permuteFlatU128_eq]
  exact ((flat_simulates level holds).permute state).symm

/-- On words of a level that holds the constants `permute_mut` is the permutation of the level. -/
theorem permuteMut_level (level : Level) (holds : 16 ≤ level.bits)
    (state : Fin 4 → BitVec level.bits) :
    permuteMut (fun i => widen 128 (state i)) =
      fun i => widen 128 ((levelOps level.field).permute state i) := by
  funext i
  rw [permuteMut, permuteFlatU128_level level holds, Hardware.flatToTowerU128_towerToFlatU128]

/-! ## Confinement -/

/-- A tower word of a level. -/
def InLevel (level : Level) (v : BitVec 128) : Prop := v.toNat < 2 ^ level.bits

instance (level : Level) (v : BitVec 128) : Decidable (InLevel level v) :=
  inferInstanceAs (Decidable (_ < _))

/-- A flat word of a level. -/
def InFlatImage (level : Level) (v : BitVec 128) : Prop :=
  ∃ tower, InLevel level tower ∧ Hardware.towerToFlatU128 tower = v

/-- Some state of a level leaves it. -/
def PermutationEscapes (level : Level) : Prop :=
  ∃ state, (∀ i, InLevel level (state i)) ∧ ∃ i, ¬ InLevel level (permuteMut state i)

/-- Some children whose lanes, with the tag taken off, are in a level have a digest outside. -/
def CompressionEscapes (label : BitVec 64) (level : Level) : Prop :=
  ∃ a b : Lanes, (∀ lane, InFlatImage level (a lane)) ∧
    (∀ lane, InFlatImage level (b lane ^^^ capacityIvFlat label lane)) ∧
    ∃ lane, ¬ InFlatImage level (compressFlatFeedForwardWithTag label a b lane)

/-- The words of a level are the widened ones. -/
theorem inLevel_iff (level : Level) (v : BitVec 128) :
    InLevel level v ↔ ∃ word : BitVec level.bits, widen 128 word = v := by
  constructor
  · intro inside
    refine ⟨v.setWidth level.bits, ?_⟩
    apply BitVec.eq_of_toNat_eq
    rw [widen, BitVec.toNat_setWidth, BitVec.toNat_setWidth, Nat.mod_eq_of_lt inside,
      Nat.mod_eq_of_lt v.isLt]
  · rintro ⟨word, rfl⟩
    rw [InLevel, widen, BitVec.toNat_setWidth]
    exact Nat.lt_of_le_of_lt (Nat.mod_le _ _) word.isLt

theorem inFlatImage_iff (level : Level) (v : BitVec 128) :
    InFlatImage level v ↔
      ∃ word : BitVec level.bits, Hardware.towerToFlatU128 (widen 128 word) = v := by
  simp only [InFlatImage, inLevel_iff]
  constructor
  · rintro ⟨_, ⟨word, rfl⟩, same⟩
    exact ⟨word, same⟩
  · rintro ⟨word, same⟩
    exact ⟨_, ⟨word, rfl⟩, same⟩

theorem InFlatImage.xor {level : Level} {v v' : BitVec 128} (first : InFlatImage level v)
    (second : InFlatImage level v') : InFlatImage level (v ^^^ v') := by
  obtain ⟨word, rfl⟩ := (inFlatImage_iff level v).mp first
  obtain ⟨word', rfl⟩ := (inFlatImage_iff level v').mp second
  refine (inFlatImage_iff level _).mpr ⟨word ^^^ word', ?_⟩
  exact (Hardware.towerToFlatU128_linear.comp Linear.setWidth) word word'

section

variable {level : Level} (holds : 16 ≤ level.bits)
include holds

/-- The flat permutation keeps a level that holds the constants. -/
theorem inFlatImage_permute {state : Fin 4 → BitVec 128} (inside : ∀ i, InFlatImage level (state i))
    (i : Fin 4) :
    InFlatImage level (permuteFlatU128 state i) := by
  choose words same using fun i => (inFlatImage_iff level (state i)).mp (inside i)
  obtain rfl : (fun i => Hardware.towerToFlatU128 (widen 128 (words i))) = state := funext same
  rw [permuteFlatU128_level level holds]
  exact (inFlatImage_iff level _).mpr ⟨_, rfl⟩

/-- From sixteen bits on, the permutation does not leave the level. -/
theorem not_permutationEscapes :
    ¬ PermutationEscapes level := by
  rintro ⟨state, inside, i, outside⟩
  choose words same using fun i => (inLevel_iff level (state i)).mp (inside i)
  obtain rfl : (fun i => widen 128 (words i)) = state := funext same
  rw [permuteMut_level level holds] at outside
  exact outside ((inLevel_iff level _).mpr ⟨_, rfl⟩)

theorem not_compressionEscapes (label : BitVec 64) :
    ¬ CompressionEscapes label level := by
  rintro ⟨a, b, left, right, lane, outside⟩
  apply outside
  have lanes : ∀ i, InFlatImage level
      (![a 0, a 1, b 0 ^^^ capacityIvFlat label 0, b 1 ^^^ capacityIvFlat label 1] i) := by
    intro i
    fin_cases i
    · exact left 0
    · exact left 1
    · exact right 0
    · exact right 1
  have permuted := inFlatImage_permute holds lanes
  fin_cases lane
  · exact (permuted 0).xor (left 0)
  · exact (permuted 1).xor (left 1)

end

/-! ## The bytes escape -/

/-- The product of `Block8` on numbers. -/
def mul8Nat (a b : Nat) : Nat := Residue.mulNat 8 0x1B 8 a b

/-- The product of `Block16` on numbers. -/
def mul16Nat (a b : Nat) : Nat :=
  let a0 := a % 256
  let a1 := a / 256
  let b0 := b % 256
  let b1 := b / 256
  let v0 := mul8Nat a0 b0
  let v1 := mul8Nat a1 b1
  let vSum := mul8Nat (a0 ^^^ a1) (b0 ^^^ b1)
  256 * (v0 ^^^ vSum) + (v0 ^^^ mul8Nat v1 0x20)

/-- The arithmetic of `Block16` on numbers. -/
def natOps : RoundOps Nat where
  zero := 0
  add a b := a ^^^ b
  mul := mul16Nat
  constant c := c

theorem toNat_block16_mul (a b : BitVec 16) :
    (Blocks.block16.mul a b).toNat = mul16Nat a.toNat b.toNat := by
  have product : ∀ x y : BitVec 8, (Tower.gf256MulEntry x y).toNat = mul8Nat x.toNat y.toNat := by
    intro x y
    rw [Tower.gf256MulEntry_eq, Residue.toNat_mul 0x1B#8 (by decide)]
    rfl
  have joined : ∀ lo hi : BitVec 8, (Blocks.new lo hi).toNat = 256 * hi.toNat + lo.toNat := by
    intro lo hi
    rw [Blocks.new_eq_append, BitVec.toNat_append, ← Nat.shiftLeft_add_eq_or_of_lt lo.isLt,
      Nat.shiftLeft_eq, Nat.mul_comm]
  have low : ∀ x : BitVec 16, (x.setWidth 8).toNat = x.toNat % 256 := fun x => BitVec.toNat_setWidth ..
  have high : ∀ x : BitVec 16, (x >>> 8).toNat % 256 = x.toNat / 256 := by
    intro x
    have bound := x.isLt
    rw [BitVec.toNat_ushiftRight, Nat.shiftRight_eq_div_pow]
    omega
  have unfolded : Blocks.block16.mul a b = Blocks.karatsuba Blocks.block8 a b := rfl
  rw [unfolded, Blocks.karatsuba]
  simp only [Blocks.split, Blocks.block8, joined, BitVec.toNat_xor, product, low, high, mul16Nat]
  rfl

/-- The rounds of the second level can be evaluated on numbers. -/
theorem nat_simulates : Simulates BitVec.toNat (levelOps Level.block16.field) natOps where
  zero := rfl
  add a b := BitVec.toNat_xor ..
  mul := toNat_block16_mul
  constant c small := by
    have word : (BitVec.ofNat 16 c).toNat = c % 2 ^ 16 := BitVec.toNat_ofNat ..
    exact word.trans (Nat.mod_eq_of_lt small)

/-- Lane 0 of the permutation of zero. -/
theorem permute_zero : natOps.permute (fun _ => 0) 0 = 0xF45A := by decide +kernel

theorem block16_permute_zero :
    ((levelOps Level.block16.field).permute (fun _ => 0#16) 0).toNat = 0xF45A :=
  (congrFun (nat_simulates.permute (fun _ => 0#16)) 0).trans permute_zero

/-- The bytes do not hold the constants, and the permutation leaves them. -/
theorem permutationEscapes_block8 : PermutationEscapes .block8 := by
  have zero : InLevel .block8 (widen 128 0#16) := by decide
  have output : permuteMut (fun _ => widen 128 0#16) 0 =
      widen 128 ((levelOps Level.block16.field).permute (fun _ => 0#16) 0) :=
    congrFun (permuteMut_level .block16 (by decide) (fun _ => 0#16)) 0
  refine ⟨fun _ => widen 128 0#16, fun _ => zero, 0, ?_⟩
  rw [output, InLevel, widen, BitVec.toNat_setWidth, block16_permute_zero]
  decide

theorem compressionEscapes_block8 (label : BitVec 64) : CompressionEscapes label .block8 := by
  have origin : Hardware.towerToFlatU128 (widen 128 0#16) = 0#128 :=
    (Hardware.towerToFlatU128_linear.comp Linear.setWidth).map_zero
  have zero : InFlatImage .block8 0#128 := ⟨widen 128 0#16, by decide, origin⟩
  refine ⟨fun _ => 0#128, fun lane => capacityIvFlat label lane, fun _ => zero, ?_, 0, ?_⟩
  · intro lane
    rw [BitVec.xor_self]
    exact zero
  · have state : ![0#128, 0#128, capacityIvFlat label 0 ^^^ capacityIvFlat label 0,
        capacityIvFlat label 1 ^^^ capacityIvFlat label 1] =
        fun _ => Hardware.towerToFlatU128 (widen 128 0#16) := by
      funext i
      rw [BitVec.xor_self, BitVec.xor_self, origin]
      fin_cases i <;> rfl
    have output : compressFlatFeedForwardWithTag label (fun _ => 0#128)
        (fun lane => capacityIvFlat label lane) 0 =
        Hardware.towerToFlatU128
          (widen 128 ((levelOps Level.block16.field).permute (fun _ => 0#16) 0)) := by
      have permuted := congrFun (permuteFlatU128_level .block16 (by decide) (fun _ => 0#16)) 0
      rw [compressFlatFeedForwardWithTag, state]
      exact BitVec.xor_zero.trans permuted
    rw [output]
    rintro ⟨tower, inside, same⟩
    have equal := congrArg Hardware.flatToTowerU128 same
    rw [Hardware.flatToTowerU128_towerToFlatU128, Hardware.flatToTowerU128_towerToFlatU128] at equal
    rw [equal, InLevel, widen, BitVec.toNat_setWidth, block16_permute_zero] at inside
    revert inside
    decide

/-- Of the proper subfields only the bytes are left by the permutation and by the compression. -/
theorem subfield_left_iff_bytes (level : Level) :
    (PermutationEscapes level ↔ level = .block8) ∧
      ∀ label, (CompressionEscapes label level ↔ level = .block8) := by
  have wide : level ≠ .block8 → 16 ≤ level.bits := by cases level <;> decide
  refine ⟨⟨?_, ?_⟩, fun label => ⟨?_, ?_⟩⟩
  · intro escapes
    by_contra other
    exact not_permutationEscapes (wide other) escapes
  · rintro rfl
    exact permutationEscapes_block8
  · intro escapes
    by_contra other
    exact not_compressionEscapes (wide other) label escapes
  · rintro rfl
    exact compressionEscapes_block8 label

/-- Bytes are not closed under the permutation nor under the compression. -/
theorem subfield_left_bytes : PermutationEscapes .block8 ∧ CompressionEscapes 0 .block8 :=
  ⟨(subfield_left_iff_bytes .block8).1.mpr rfl, ((subfield_left_iff_bytes .block8).2 0).mpr rfl⟩

/-- Sixteen-bit lanes stay sixteen-bit lanes, under every tag. -/
theorem sixteen_bits_confined :
    ¬ PermutationEscapes .block16 ∧ ∀ label, ¬ CompressionEscapes label .block16 :=
  ⟨not_permutationEscapes (by decide), not_compressionEscapes (by decide)⟩

end ParanoidChain.Poseidon2b
