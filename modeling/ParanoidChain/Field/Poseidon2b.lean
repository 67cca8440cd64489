import ParanoidChain.Field.Hardware

/-!
# The Poseidon2b permutation

`noid_poseidon2b/src/native/permutation.rs`: four lanes, the S-box `x^7`, eight full and 58 partial
rounds, carried out in the flat basis. The constants are given in the tower basis and mapped. Products
are those of the portable backend; the others compute the same words.
-/

namespace ParanoidChain.Poseidon2b

def fRounds : Nat := 8

def pRounds : Nat := 58

def nRounds : Nat := fRounds + pRounds

/-- `ROUND_CONSTANTS`, lane by lane. -/
def roundConstantRows : List (List Nat) :=
  [
    [0, 1, 0, 3, 7, 7, 6, 6, 2, 1, 7, 2, 2, 3, 3, 2, 6, 5, 7, 5, 0, 2, 2, 3, 1, 5, 2, 6, 1, 4, 1,
      0, 3, 7, 2, 0, 1, 2, 4, 1, 0, 0, 2, 5, 7, 2, 0, 4, 1, 5, 5, 1, 2, 7, 3, 1, 0, 1, 3, 7, 1,
      6, 1, 6, 6, 2],
    [3, 3, 0, 6, 7, 1, 1, 2, 7, 3, 7, 5, 7, 1, 7, 3, 6, 1, 7, 5, 5, 5, 7, 1, 6, 5, 1, 2, 6, 3, 5,
      4, 4, 6, 3, 2, 3, 0, 4, 1, 0, 6, 1, 7, 6, 7, 1, 6, 4, 1, 4, 0, 4, 3, 4, 0, 3, 0, 0, 7, 3,
      2, 3, 5, 0, 2],
    [6, 0, 5, 3, 2, 5, 6, 5, 6, 7, 2, 7, 6, 4, 1, 0, 6, 3, 2, 6, 2, 1, 5, 3, 1, 7, 7, 6, 7, 1, 1,
      4, 4, 4, 6, 2, 5, 4, 0, 3, 1, 4, 1, 6, 1, 6, 7, 7, 6, 2, 7, 3, 3, 3, 0, 2, 6, 4, 0, 0, 0,
      3, 1, 4, 1, 5],
    [7, 1, 1, 5, 1, 2, 2, 7, 5, 0, 5, 5, 1, 4, 6, 5, 2, 4, 0, 1, 0, 4, 6, 4, 3, 7, 3, 2, 4, 0, 1,
      6, 3, 3, 2, 6, 3, 4, 6, 3, 2, 3, 5, 1, 1, 2, 4, 5, 5, 6, 0, 5, 5, 6, 4, 1, 2, 1, 5, 7, 1,
      3, 1, 2, 2, 2]
  ]

def roundConstants (i : Fin 4) (r : Nat) : Nat := (roundConstantRows.getD i []).getD r 0

def mdsFull : Fin 4 → Fin 4 → Nat :=
  ![![0x5, 0x7, 0x1, 0x3], ![0x4, 0x6, 0x1, 0x1], ![0x1, 0x3, 0x5, 0x7], ![0x1, 0x1, 0x4, 0x6]]

def mdsPartial : Fin 4 → Fin 4 → Nat :=
  ![![0x20, 1, 1, 1], ![1, 0x2000, 1, 1], ![1, 1, 0x200, 1], ![1, 1, 1, 0x800]]

/-- The product in the flat basis. -/
def mulFlat : BitVec 128 → BitVec 128 → BitVec 128 := Hardware.clmulGcm .soft

/-- A constant of the tower basis in the flat one. -/
def flat (tower : Nat) : BitVec 128 := Hardware.towerToFlatU128 (BitVec.ofNat 128 tower)

/-- `apply_mds_full_flat` and `apply_mds_partial_flat`: a coefficient one is not multiplied. -/
def applyMdsFlat (mds : Fin 4 → Fin 4 → Nat) (state : Fin 4 → BitVec 128) : Fin 4 → BitVec 128 :=
  fun i => (List.finRange 4).foldl (fun out j =>
    if mds i j = 1 then out ^^^ state j else out ^^^ mulFlat (state j) (flat (mds i j))) 0#128

def applyMdsFullFlat : (Fin 4 → BitVec 128) → Fin 4 → BitVec 128 := applyMdsFlat mdsFull

def applyMdsPartialFlat : (Fin 4 → BitVec 128) → Fin 4 → BitVec 128 := applyMdsFlat mdsPartial

/-- `sbox_x7_flat_u128`. -/
def sboxX7FlatU128 (x : BitVec 128) : BitVec 128 :=
  let x2 := squareFlatU128 x
  let x4 := squareFlatU128 x2
  let x6 := mulFlat x x2
  mulFlat x6 x4

/-- Whether round `r` is a full one. -/
def isFullRound (r : Nat) : Prop := ¬ (fRounds / 2 ≤ r ∧ r < fRounds / 2 + pRounds)

instance : DecidablePred isFullRound := fun _ => inferInstanceAs (Decidable (¬ _))

instance lanesNeZero : NeZero 4 := ⟨by decide⟩

/-- One round of `permute_flat_u128`. -/
def roundFlat (state : Fin 4 → BitVec 128) (r : Nat) : Fin 4 → BitVec 128 :=
  if isFullRound r then
    applyMdsFullFlat fun i => sboxX7FlatU128 (state i ^^^ flat (roundConstants i r))
  else
    applyMdsPartialFlat
      (Function.update state 0 (sboxX7FlatU128 (state 0 ^^^ flat (roundConstants 0 r))))

/-- `permute_flat_u128`. -/
def permuteFlatU128 (state : Fin 4 → BitVec 128) : Fin 4 → BitVec 128 :=
  (List.range nRounds).foldl roundFlat (applyMdsFullFlat state)

end ParanoidChain.Poseidon2b
