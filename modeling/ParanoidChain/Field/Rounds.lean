import ParanoidChain.Field.Poseidon2b
import ParanoidChain.Field.Blocks

/-!
# The rounds of Poseidon2b over any arithmetic

The source computes the permutation several times over: on flat words (`permute_flat_u128`), on tower
words for the layered witness, and in tests on a tower reference. Here the rounds are written once over
an addition, a product and a reading of the constants, so that a map between two such arithmetics
carries one permutation to the other. `permute_mut` and the one-permutation compression of
`native/compression.rs` are built on the flat one.
-/

namespace ParanoidChain.Poseidon2b

/-- What the rounds are computed with. -/
structure RoundOps (α : Type) where
  zero : α
  add : α → α → α
  mul : α → α → α
  /-- A constant of the tower basis. -/
  constant : Nat → α

namespace RoundOps

variable {α : Type} (ops : RoundOps α)

/-- A matrix of constants applied to the lanes; a coefficient one is not multiplied. -/
def applyMds (mds : Fin 4 → Fin 4 → Nat) (state : Fin 4 → α) : Fin 4 → α :=
  fun i => (List.finRange 4).foldl (fun out j =>
    if mds i j = 1 then ops.add out (state j)
    else ops.add out (ops.mul (state j) (ops.constant (mds i j)))) ops.zero

/-- The S-box `x^7`. -/
def sboxX7 (x : α) : α :=
  let x2 := ops.mul x x
  let x4 := ops.mul x2 x2
  let x6 := ops.mul x x2
  ops.mul x6 x4

/-- One round. -/
def round (state : Fin 4 → α) (r : Nat) : Fin 4 → α :=
  if isFullRound r then
    ops.applyMds mdsFull fun i =>
      ops.sboxX7 (ops.add (state i) (ops.constant (roundConstants i r)))
  else
    ops.applyMds mdsPartial
      (Function.update state 0
        (ops.sboxX7 (ops.add (state 0) (ops.constant (roundConstants 0 r)))))

/-- The permutation. -/
def permute (state : Fin 4 → α) : Fin 4 → α :=
  (List.range nRounds).foldl ops.round (ops.applyMds mdsFull state)

end RoundOps

/-- The arithmetic of `permute_flat_u128`. -/
def flatOps : RoundOps (BitVec 128) where
  zero := 0#128
  add a b := a ^^^ b
  mul := mulFlat
  constant := flat

/-- The arithmetic of a level of the tower. -/
def levelOps {w : Nat} (level : Blocks.TowerField (BitVec w)) : RoundOps (BitVec w) where
  zero := level.zero
  add := level.add
  mul := level.mul
  constant := BitVec.ofNat w

/-! ## The entry points -/

/-- `Poseidon2bPermutation::permute_mut`. -/
def permuteMut (state : Fin 4 → BitVec 128) : Fin 4 → BitVec 128 :=
  fun i => Hardware.flatToTowerU128
    (permuteFlatU128 (fun i => Hardware.towerToFlatU128 (state i)) i)

/-- `capacity_iv` of a tag, given by its label `as_u64`: the high word first. -/
def capacityIv (label : BitVec 64) : Fin 2 → BitVec 128 :=
  ![label.setWidth 128 <<< 64, label.setWidth 128]

/-- `capacity_iv_flat`. -/
def capacityIvFlat (label : BitVec 64) : Fin 2 → BitVec 128 :=
  fun word => Hardware.towerToFlatU128 (capacityIv label word)

/-- A 32-byte digest by its two little-endian lanes. -/
abbrev Lanes := Fin 2 → BitVec 128

/-- `compress_flat_feed_forward_with_tag`. -/
def compressFlatFeedForwardWithTag (label : BitVec 64) (a b : Lanes) : Lanes :=
  let iv := capacityIvFlat label
  let state := permuteFlatU128 ![a 0, a 1, b 0 ^^^ iv 0, b 1 ^^^ iv 1]
  ![state 0 ^^^ a 0, state 1 ^^^ a 1]

end ParanoidChain.Poseidon2b
