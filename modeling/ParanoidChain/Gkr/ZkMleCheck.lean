import ParanoidChain.Lib.Control
import Mathlib.Algebra.Algebra.Defs
import Mathlib.Algebra.Field.Basic
import Mathlib.Data.List.FinRange

/-!
# The Libra mask of the owner rounds

`noid_gkr/src/zk_mlecheck.rs`: the separable degree-ten mask `g(X) = sum_i g_i(X_i)` read from 256
base-field cells, its rounds, and the combination with a main round polynomial; and the loop of
`prove_zk_auth_capsule_owner` (`zk_authorization.rs`) that publishes the mask's multilinear value, the
eleven truncated rounds and the final mask value. The main round polynomials and the challenges are
parameters of the loop: in the source the first come from the bank and the second from the transcript.
-/

namespace ParanoidChain.Gkr

open Lib

/-- `ZK_MLECHECK_N_VARS`, also the number of rounds. -/
abbrev maskVars : Nat := 11

/-- `ZK_MLECHECK_MASK_COEFFS`. -/
abbrev maskCoeffs : Nat := 11

/-- `ZK_MLECHECK_MASK_ROW_STRIDE`. -/
abbrev maskRowStride : Nat := 16

/-- `ZK_MLECHECK_MASK_LEN`. -/
abbrev maskLen : Nat := 256

/-- The errors of the functions below. -/
inductive ZkMleCheckError where
  | tooManyPriorChallenges
  | mainRoundEmpty
  | mainRoundDegreeTooHigh (max actual : Nat)
  | combinedRoundCoefficientCount (expected actual : Nat)
  | zeroMaskBatchChallenge
  | lambdaZero
  | mainRoundEndpointMismatch (round : Nat)
  deriving DecidableEq

/-- `ZkMleCheckMaskView`: a slice of exactly 256 cells. -/
abbrev ZkMleCheckMaskView (K : Type) := Fin maskLen → K

section Rounds

variable {F : Type} [Field F]

/-- `evaluate_coefficients`, by Horner's rule; also `RoundPolynomial::evaluate`. -/
def evaluateCoefficients (coeffs : List F) (x : F) : F :=
  coeffs.reverse.foldl (fun acc coeff => acc * x + coeff) 0

def mlecheckEndpointClaim (coeffs : List F) (alpha : F) : F :=
  match coeffs with
  | [] => 0
  | constant :: nonconstant => constant + alpha * nonconstant.foldl (· + ·) 0

/-- Main coefficients added onto as many combined ones. -/
def addOnto : List F → List F → List F
  | combined :: rest, main :: mains => (combined + main) :: addOnto rest mains
  | combined, _ => combined

def combineMainAndMaskRound [DecidableEq F] (mainRound maskRound : List F) (lambda : F) :
    Except ZkMleCheckError (List F) :=
  if lambda = 0 then .error .zeroMaskBatchChallenge
  else if mainRound.isEmpty then .error .mainRoundEmpty
  else if maskCoeffs < mainRound.length then
    .error (.mainRoundDegreeTooHigh (maskCoeffs - 1) (mainRound.length - 1))
  else .ok (addOnto (maskRound.map (lambda * ·)) mainRound)

/-- `ZkMleCheckRoundProof::truncate`. -/
def truncate (full : List F) : Except ZkMleCheckError (List F) :=
  if full.length ≠ maskCoeffs then
    .error (.combinedRoundCoefficientCount maskCoeffs full.length)
  else .ok full.tail

/-- The variable a round binds: rounds run from the highest variable down. -/
def variableOfRound (round : Nat) : Fin maskVars :=
  ⟨maskVars - 1 - round, Nat.lt_of_le_of_lt (Nat.sub_le _ _) (by decide)⟩

end Rounds

section Mask

variable {K F : Type} [Field K] [Field F] [Algebra K F]

theorem maskCell_lt (var : Fin maskVars) (power : Fin maskCoeffs) :
    var.val * maskRowStride + power.val < maskLen := by
  have := var.isLt
  have := power.isLt
  simp only [maskVars, maskCoeffs, maskRowStride, maskLen] at *
  omega

/-- `coefficients_for_var`, for a variable in range. -/
def coefficientsForVar (mask : ZkMleCheckMaskView K) (var : Fin maskVars) : List K :=
  List.ofFn fun power : Fin maskCoeffs =>
    mask ⟨var.val * maskRowStride + power.val, maskCell_lt var power⟩

/-- The coefficients of a variable, embedded. -/
def embeddedCoefficients (F : Type) [Field F] [Algebra K F] (mask : ZkMleCheckMaskView K)
    (var : Fin maskVars) : List F :=
  (coefficientsForVar mask var).map (algebraMap K F)

/-- `evaluate_univariate_unchecked`. -/
def evaluateUnivariate (mask : ZkMleCheckMaskView K) (var : Fin maskVars) (x : F) : F :=
  evaluateCoefficients (embeddedCoefficients F mask var) x

def endpointLine (mask : ZkMleCheckMaskView K) (var : Fin maskVars) (z : F) : F :=
  let coeffs := embeddedCoefficients F mask var
  let atZero := coeffs.headD 0
  let atOne := coeffs.foldl (· + ·) 0
  atZero + z * (atOne - atZero)

def evaluateMle (mask : ZkMleCheckMaskView K) (inputPoint : Fin maskVars → F) : F :=
  (List.finRange maskVars).foldl
    (fun value var => value + endpointLine mask var (inputPoint var)) 0

def evaluateFinal (mask : ZkMleCheckMaskView K) (terminalPoint : Fin maskVars → F) : F :=
  (List.finRange maskVars).foldl
    (fun value var => value + evaluateUnivariate mask var (terminalPoint var)) 0

def roundCoefficients (mask : ZkMleCheckMaskView K) (inputPoint : Fin maskVars → F)
    (priorChallenges : List F) : Except ZkMleCheckError (List F) :=
  if maskVars ≤ priorChallenges.length then .error .tooManyPriorChallenges
  else
    let var := variableOfRound priorChallenges.length
    let bound := priorChallenges.zipIdx.foldl (fun offset entry =>
      offset + evaluateUnivariate mask (variableOfRound entry.2) entry.1) 0
    let constantOffset := ((List.finRange maskVars).take var).foldl (fun offset lower =>
      offset + endpointLine mask lower (inputPoint lower)) bound
    .ok ((embeddedCoefficients F mask var).modifyHead (· + constantOffset))

/-- What the loop over the rounds carries. -/
structure OwnerRounds (F : Type) where
  priorChallenges : List F
  mainRunningClaim : F
  roundProofs : List (List F)

variable [DecidableEq F]

/-- One pass of the loop over the rounds. -/
def ownerRound (mask : ZkMleCheckMaskView K) (rho : Fin maskVars → F) (lambda : F)
    (mainRounds : Fin maskVars → List F) (challenges : Fin maskVars → F) (state : OwnerRounds F)
    (round : Fin maskVars) : Except ZkMleCheckError (OwnerRounds F) := do
  let mainRound := mainRounds round
  reject (mlecheckEndpointClaim mainRound (rho (variableOfRound round)) ≠ state.mainRunningClaim)
    (.mainRoundEndpointMismatch round)
  let maskRound ← roundCoefficients mask rho state.priorChallenges
  let combined ← combineMainAndMaskRound mainRound maskRound lambda
  let roundProof ← truncate combined
  pure {
    priorChallenges := state.priorChallenges ++ [challenges round]
    mainRunningClaim := evaluateCoefficients mainRound (challenges round)
    roundProofs := state.roundProofs ++ [roundProof] }

/-- The messages of the owner proof that depend on the mask: its multilinear value at the input
point, the truncated rounds and its value at the terminal point. -/
def publishedMessages (mask : ZkMleCheckMaskView K) (rho : Fin maskVars → F) (lambda : F)
    (mainRounds : Fin maskVars → List F) (challenges : Fin maskVars → F) :
    Except ZkMleCheckError (F × List (List F) × F) := do
  let maskMu := evaluateMle mask rho
  reject (lambda = 0) .lambdaZero
  let rounds ← (List.finRange maskVars).foldlM (ownerRound mask rho lambda mainRounds challenges)
    { priorChallenges := [], mainRunningClaim := 0, roundProofs := [] }
  let terminalPoint := fun var : Fin maskVars => challenges (variableOfRound var)
  pure (maskMu, rounds.roundProofs, evaluateFinal mask terminalPoint)

end Mask

end ParanoidChain.Gkr
