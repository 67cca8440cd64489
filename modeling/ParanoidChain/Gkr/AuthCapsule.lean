import Mathlib.Algebra.Algebra.Defs
import Mathlib.Algebra.Field.Basic
import Mathlib.Data.Fin.Tuple.Basic

/-!
# The owner capsule's terminal operands

The part of `noid_gkr/src/zk_auth_capsule.rs` that publishes the five terminal operand claims: the
layout of the bank of 2048 cells, the multilinear basis weights of a point, the weights of the five
padded operand extensions and the claims themselves, with the rank certificate that the prover and the
verifier ask for. A bank holds base-field cells; points and claims live in an extension field `F`, into
which `F::from` embeds the cells.
-/

namespace ParanoidChain.Gkr

/-- `ZK_AUTH_CAPSULE_BANK_VARS`. -/
abbrev bankVars : Nat := 11

/-- `ZK_AUTH_CAPSULE_BANK_LEN`. -/
abbrev bankLen : Nat := 2048

/-- `ZK_AUTH_CAPSULE_STATE_LEN`; the state cells come first. -/
abbrev stateLen : Nat := 512

/-- `ZK_AUTH_CAPSULE_TERMINAL_BLINDING_CELLS`, also the number of operand claims. -/
abbrev terminalBlindingCells : Nat := 5

/-- `ZK_AUTH_CAPSULE_TERMINAL_BLINDING_OFFSET`. -/
abbrev terminalBlindingOffset : Nat := 768

/-- `ZK_AUTH_CAPSULE_TERMINAL_BLINDING_BOOLEAN_INDEX`. -/
abbrev terminalBlindingBooleanIndex : Nat := 2047

/-- `STATE_SIZE`. -/
abbrev stateSize : Nat := 4

/-- `ZK_AUTH_CAPSULE_ACTIVE_ROUNDS`. -/
abbrev activeRounds : Nat := 66

/-- `ZK_AUTH_CAPSULE_STORED_ROUNDS`. -/
abbrev storedRounds : Nat := 128

/-- The errors of the functions below. -/
inductive ZkAuthCapsuleError where
  | stateRoundOutOfRange (round : Nat)
  | currentRoundOutOfRange (round : Nat)
  | stateLaneOutOfRange (lane : Nat)
  | zeroTerminalBlindingWeight
  deriving DecidableEq

/-- `ZkAuthCapsuleBankView`: a slice of exactly 2048 cells. -/
abbrev ZkAuthCapsuleBankView (K : Type) := Fin bankLen → K

/-- `state_cell_index`: the lane in bits 0 and 1, the round above. -/
def stateCellIndex (round lane : Nat) : Except ZkAuthCapsuleError Nat :=
  if storedRounds ≤ round then .error (.stateRoundOutOfRange round)
  else if stateSize ≤ lane then .error (.stateLaneOutOfRange lane)
  else .ok (round <<< 2 ||| lane)

/-- `current_state_cell_index`. -/
def currentStateCellIndex (round lane : Nat) : Except ZkAuthCapsuleError Nat :=
  if activeRounds ≤ round then .error (.currentRoundOutOfRange round)
  else stateCellIndex round lane

/-- `next_state_cell_index`. -/
def nextStateCellIndex (round lane : Nat) : Except ZkAuthCapsuleError Nat :=
  if activeRounds ≤ round then .error (.currentRoundOutOfRange round)
  else stateCellIndex (round + 1) lane

/-- `state_round_from_boolean_index`. -/
def stateRoundFromBooleanIndex (index : Nat) : Nat := index >>> 2 &&& storedRounds - 1

/-- `state_lane_from_boolean_index`. -/
def stateLaneFromBooleanIndex (index : Nat) : Nat := index &&& stateSize - 1

/-- `active_state_selector_at_boolean_index`. -/
def activeStateSelectorAtBooleanIndex (index : Nat) : Bool :=
  index >>> 9 = 0 ∧ stateRoundFromBooleanIndex index < activeRounds

section Weights

variable {F : Type} [Field F]

/-- One factor of a basis weight. -/
def basisFactor (index : Nat) (coefficient : F) (entry : F × Nat) : F :=
  if index.testBit entry.2 then coefficient * entry.1 else coefficient * (1 - entry.1)

/-- `mle_basis_weight_at_boolean_index`. -/
def mleBasisWeightAtBooleanIndex (point : List F) (index : Nat) : F :=
  point.zipIdx.foldl (basisFactor index) 1

/-- `mle_weights_low_to_high`. -/
def mleWeightsLowToHigh (point : List F) : List F :=
  point.foldl (fun weights coordinate =>
    weights.map (· * (1 - coordinate)) ++ weights.map (· * coordinate)) [1]

/-- `AuthCapsuleTerminalBlindingRankCertificate`. -/
structure TerminalBlindingRankCertificate (F : Type) where
  booleanIndex : Nat
  commonCoefficient : F
  blindingCellIndices : Fin terminalBlindingCells → Nat
  certifiedRank : Nat

/-- `certify_terminal_blinding_rank`. -/
def certifyTerminalBlindingRank [DecidableEq F] (point : Fin bankVars → F) :
    Except ZkAuthCapsuleError (TerminalBlindingRankCertificate F) :=
  let commonCoefficient :=
    mleBasisWeightAtBooleanIndex (List.ofFn point) terminalBlindingBooleanIndex
  if commonCoefficient = 0 then .error .zeroTerminalBlindingWeight
  else .ok {
    booleanIndex := terminalBlindingBooleanIndex
    commonCoefficient
    blindingCellIndices := fun claim => terminalBlindingOffset + claim
    certifiedRank := terminalBlindingCells }

/-- The weights of the five operand extensions, cell by cell. -/
abbrev OperandWeights (F : Type) := Fin terminalBlindingCells → Nat → F

/-- `weights[claim][cell] += coefficient`. -/
def addWeight (weights : OperandWeights F) (claim : Fin terminalBlindingCells) (cell : Nat)
    (coefficient : F) : OperandWeights F :=
  Function.update weights claim
    (Function.update (weights claim) cell (weights claim cell + coefficient))

/-- The weight of one input lane. Nothing when the `expect` aborts. -/
def addLane (round : Nat) (coefficient : F) (weights : OperandWeights F)
    (inputLane : Fin stateSize) : Option (OperandWeights F) := do
  let current ← (currentStateCellIndex round inputLane).toOption
  pure (addWeight weights inputLane.succ current coefficient)

/-- One pass of the loop over the rows. -/
def addRow (weights : OperandWeights F) (row : F × Nat) : Option (OperandWeights F) :=
  if activeStateSelectorAtBooleanIndex row.2 then do
    let round := stateRoundFromBooleanIndex row.2
    let next ← (nextStateCellIndex round (stateLaneFromBooleanIndex row.2)).toOption
    (List.finRange stateSize).foldlM (addLane round row.1) (addWeight weights 0 next row.1)
  else pure weights

/-- The loop over the claims: each gets a pad cell of its own at the last row. -/
def addPads (coefficient : F) (weights : OperandWeights F) : OperandWeights F :=
  (List.finRange terminalBlindingCells).foldl (fun weights claim =>
    addWeight weights claim (terminalBlindingOffset + claim) coefficient) weights

/-- `terminal_operand_functional_weights`. -/
def terminalOperandFunctionalWeights (point : Fin bankVars → F) : Option (OperandWeights F) := do
  let eq := mleWeightsLowToHigh (List.ofFn point)
  let weights ← eq.zipIdx.foldlM addRow (fun _ _ => 0)
  let blindingCoefficient ← eq[terminalBlindingBooleanIndex]?
  pure (addPads blindingCoefficient weights)

end Weights

section Claims

variable {K F : Type} [Field K] [Field F] [Algebra K F]

/-- `inner_product` of the bank with a row of weights. -/
def innerProduct (bank : ZkAuthCapsuleBankView K) (weights : Nat → F) : F :=
  (List.finRange bankLen).foldl (fun sum cell => sum + algebraMap K F (bank cell) * weights cell) 0

/-- `AuthCapsuleTerminalOperandClaims`. -/
structure TerminalOperandClaims (F : Type) where
  increment : F
  lane : Fin stateSize → F

/-- `ordered`. -/
def TerminalOperandClaims.ordered (claims : TerminalOperandClaims F) :
    Fin terminalBlindingCells → F :=
  Fin.cons claims.increment claims.lane

/-- `compute_terminal_operand_claims`. -/
def computeTerminalOperandClaims (bank : ZkAuthCapsuleBankView K) (point : Fin bankVars → F) :
    Option (TerminalOperandClaims F) := do
  let weights ← terminalOperandFunctionalWeights point
  pure {
    increment := innerProduct bank (weights 0)
    lane := fun inputLane => innerProduct bank (weights inputLane.succ) }

/-- The five values published for a bank at a point. -/
def publishedClaims (bank : ZkAuthCapsuleBankView K) (point : Fin bankVars → F) :
    Option (Fin terminalBlindingCells → F) :=
  (computeTerminalOperandClaims bank point).map TerminalOperandClaims.ordered

/-- The bank with the five blinding cells replaced. -/
def ZkAuthCapsuleBankView.withBlinding (bank : ZkAuthCapsuleBankView K)
    (pads : Fin terminalBlindingCells → K) : ZkAuthCapsuleBankView K :=
  fun cell =>
    if inside : terminalBlindingOffset ≤ cell.val ∧
        cell.val < terminalBlindingOffset + terminalBlindingCells then
      pads ⟨cell.val - terminalBlindingOffset, by omega⟩
    else bank cell

end Claims

end ParanoidChain.Gkr
