import ParanoidChain.Lib.Control
import Mathlib.Algebra.Algebra.Defs
import Mathlib.Algebra.Field.Basic
import Mathlib.Data.List.FinRange

/-!
# Phase A

`noid_fri_binius/src/zk_phase_a.rs`: the product sumcheck that the inner product of the virtual oracle
with the relation weights is the blended claim. Eleven rounds bind the variables from the highest to
the lowest; a round sends its polynomial's value at one and its quadratic coefficient, and the verifier
takes the rest from the running claim. A slice is a list, an array a function on `Fin`. The tables are
folded by `noid_core/src/mle`.
-/

namespace ParanoidChain.Fri

open Lib

section Mle

variable {F : Type} [Field F]

/-- `fold_highest_var_inplace`, on a table with two entries at least. -/
def foldHighestVarInplace (evals : List F) (r : F) : List F :=
  let half := evals.length / 2
  List.zipWith (fun lo hi =>
    let delta := hi - lo
    lo + r * delta) (evals.take half) (evals.drop half)

/-- `evaluate_inplace_scalars` and `evaluate_slice`, on a table of `2 ^ n` entries for a point of `n`
coordinates: the last coordinate is bound first. -/
def evaluateSlice (evals point : List F) : F :=
  (point.reverse.foldl foldHighestVarInplace evals).headD 0

end Mle

/-- `PHASE_A_VARS`. -/
abbrev phaseAVars : Nat := 11

/-- `PHASE_A_ORACLE_LEN`. -/
abbrev phaseAOracleLen : Nat := 2048

/-- `ZkPhaseAError`, for the functions below. -/
inductive ZkPhaseAError where
  | relationLength (expected actual : Nat)
  | challengeCount (expected actual : Nat)
  | gammaZero
  | gammaOne
  | terminalProductMismatch
  deriving DecidableEq

/-- `ZkPhaseARelationClaims`. -/
structure ZkPhaseARelationClaims (F : Type) where
  bank : F
  companion : F

/-- `ZkPhaseARoundProof`. -/
structure ZkPhaseARoundProof (F : Type) where
  atOne : F
  atInfinity : F

/-- `ZkPhaseAProof`. -/
structure ZkPhaseAProof (F : Type) where
  rounds : Fin phaseAVars → ZkPhaseARoundProof F

/-- `ZkPhaseAVerifierOutput`. -/
structure ZkPhaseAVerifierOutput (F : Type) where
  initialClaim : F
  terminalPoint : Fin phaseAVars → F
  terminalRelationValue : F
  terminalOracleValue : F

/-- `check_len`. -/
def checkLen (actual : Nat) (error : Nat → Nat → ZkPhaseAError) : Except ZkPhaseAError Unit :=
  reject (actual ≠ phaseAOracleLen) (error phaseAOracleLen actual)

/-- `check_challenges`. -/
def checkChallenges {F : Type} (challengesHighToLow : List F) : Except ZkPhaseAError Unit :=
  reject (challengesHighToLow.length ≠ phaseAVars)
    (.challengeCount phaseAVars challengesHighToLow.length)

/-- `phase_a_terminal_point`. -/
def phaseATerminalPoint {F : Type} [Zero F] (challengesHighToLow : List F) :
    Except ZkPhaseAError (Fin phaseAVars → F) := do
  checkChallenges challengesHighToLow
  pure fun lowVariable => challengesHighToLow.getD (phaseAVars - 1 - lowVariable) 0

section Verifier

variable {F : Type} [Field F] [DecidableEq F]

/-- `evaluate_from_claim`. -/
def ZkPhaseARoundProof.evaluateFromClaim (self : ZkPhaseARoundProof F) (claim challenge : F) : F :=
  let atZero := claim + self.atOne
  let linear := claim + self.atInfinity
  atZero + challenge * linear + challenge * challenge * self.atInfinity

/-- `check_gamma`. -/
def checkGamma (gamma : F) : Except ZkPhaseAError Unit := do
  reject (gamma = 0) .gammaZero
  reject (gamma = 1) .gammaOne

/-- `phase_a_initial_claim`. -/
def phaseAInitialClaim (claims : ZkPhaseARelationClaims F) (gamma : F) :
    Except ZkPhaseAError F := do
  checkGamma gamma
  pure (claims.bank + gamma * (claims.bank + claims.companion))

/-- `verify_phase_a`. -/
def verifyPhaseA (proof : ZkPhaseAProof F) (relationClaims : ZkPhaseARelationClaims F)
    (relation : List F) (gamma : F) (challengesHighToLow : List F) (terminalOracleValue : F) :
    Except ZkPhaseAError (ZkPhaseAVerifierOutput F) := do
  checkGamma gamma
  checkLen relation.length .relationLength
  checkChallenges challengesHighToLow
  let initialClaim ← phaseAInitialClaim relationClaims gamma
  let runningClaim := (challengesHighToLow.zip (List.ofFn proof.rounds)).foldl
    (fun claim entry => entry.2.evaluateFromClaim claim entry.1) initialClaim
  let terminalPoint ← phaseATerminalPoint challengesHighToLow
  let terminalRelationValue := evaluateSlice relation (List.ofFn terminalPoint)
  reject (runningClaim ≠ terminalRelationValue * terminalOracleValue) .terminalProductMismatch
  pure { initialClaim, terminalPoint, terminalRelationValue, terminalOracleValue }

end Verifier

/-! ## The prover -/

section Prover

variable {F : Type} [Field F] [DecidableEq F]

/-- `inner_product`. -/
def innerProduct (left right : List F) : F :=
  (left.zip right).foldl (fun sum entry => sum + entry.1 * entry.2) 0

end Prover

end ParanoidChain.Fri
