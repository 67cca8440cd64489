import ParanoidChain.Field.Tower
import ParanoidChain.Gkr.ZkMleCheck
import ParanoidChain.Lib.Uniform

/-!
# What the Libra mask hides

The messages of the owner rounds are the main coefficients plus `lambda` times the mask's own, the
mask's multilinear value at the input point and its value at the terminal point. The mask cells are
drawn from the base field: a coefficient is moved along the line through `lambda` only, and the eleven
constants can make up a base-field amount only. So two sequences of main rounds, equal in their first
and last claim, are published alike exactly when every difference of coefficients and their combination
at the input point are `lambda` times base-field elements. Telescoping takes care of the final value.
-/

namespace ParanoidChain.Gkr

open Lib

/-! ## Coefficient lists -/

section Lists

variable {F : Type} [Field F]

theorem evaluateCoefficients_nil (x : F) : evaluateCoefficients [] x = 0 := rfl

theorem evaluateCoefficients_cons (coeff : F) (rest : List F) (x : F) :
    evaluateCoefficients (coeff :: rest) x = coeff + evaluateCoefficients rest x * x := by
  simp [evaluateCoefficients, add_comm]

variable {coeffs : List F}

/-- Horner's rule is the sum over the powers. -/
theorem evaluateCoefficients_eq_sum {count : Nat} (short : coeffs.length ≤ count) (x : F) :
    evaluateCoefficients coeffs x =
      ∑ power ∈ Finset.range count, coeffs.getD power 0 * x ^ power := by
  induction coeffs generalizing count with
  | nil => simp [evaluateCoefficients]
  | cons coeff rest ih =>
    obtain ⟨fewer, rfl⟩ : ∃ fewer, count = fewer + 1 := ⟨count - 1, by simp at short; omega⟩
    rw [evaluateCoefficients_cons, Finset.sum_range_succ', ih (by simpa using short),
      Finset.sum_mul, add_comm]
    simp [pow_succ, mul_assoc]

/-- The fold over the coefficients is their sum, with zeros behind the end. -/
theorem foldl_add_eq_sum {count : Nat} (short : coeffs.length ≤ count) (start : F) :
    coeffs.foldl (· + ·) start =
      start + ∑ power ∈ Finset.range count, coeffs.getD power 0 := by
  induction coeffs generalizing count start with
  | nil => simp
  | cons coeff rest ih =>
    obtain ⟨fewer, rfl⟩ : ∃ fewer, count = fewer + 1 := ⟨count - 1, by simp at short; omega⟩
    rw [List.foldl_cons, ih (by simpa using short), Finset.sum_range_succ']
    simp only [List.getD_cons_succ, List.getD_cons_zero]
    ring

/-- The claim of a round, as a sum over the coefficients above the constant one. -/
theorem mlecheckEndpointClaim_eq_sum {count : Nat} (short : coeffs.length ≤ count + 1) (alpha : F) :
    mlecheckEndpointClaim coeffs alpha =
      coeffs.getD 0 0 + alpha * ∑ power ∈ Finset.range count, coeffs.getD (power + 1) 0 := by
  cases coeffs with
  | nil => simp [mlecheckEndpointClaim]
  | cons constant rest =>
    rw [mlecheckEndpointClaim, foldl_add_eq_sum (by simpa using short), zero_add]
    simp

/-- What binding a round's variable does to the claim. -/
theorem evaluate_sub_endpoint {count : Nat} (short : coeffs.length ≤ count + 1) (x alpha : F) :
    evaluateCoefficients coeffs x - mlecheckEndpointClaim coeffs alpha =
      ∑ power ∈ Finset.range count, coeffs.getD (power + 1) 0 * (x ^ (power + 1) - alpha) := by
  rw [evaluateCoefficients_eq_sum short, mlecheckEndpointClaim_eq_sum short,
    Finset.sum_range_succ', pow_zero, mul_one, Finset.mul_sum,
    add_comm (coeffs.getD 0 0), add_sub_add_right_eq_sub, ← Finset.sum_sub_distrib]
  refine Finset.sum_congr rfl fun power _ => ?_
  ring

theorem addOnto_eq (combined main : List F) :
    addOnto combined main = combined.mapIdx fun power coeff => coeff + main.getD power 0 := by
  induction combined, main using addOnto.induct with
  | case1 coeff rest own mains ih => simp [addOnto, ih, List.mapIdx_cons]
  | case2 combined main stop =>
    cases combined with
    | nil => simp [addOnto]
    | cons coeff rest =>
      cases main with
      | nil => exact List.ext_getElem? (by simp [addOnto, -List.mapIdx_cons])
      | cons own mains => exact (stop coeff rest own mains rfl rfl).elim

end Lists

/-! ## The mask -/

section Mask

variable {K F : Type} [Field K] [Field F] [Algebra K F]

/-- The coefficient of one power in the univariate part of one variable. -/
def maskCoefficient (F : Type) [Field F] [Algebra K F] (mask : ZkMleCheckMaskView K)
    (var : Fin maskVars) (power : Nat) : F :=
  (embeddedCoefficients F mask var).getD power 0

/-- The cell of an active coefficient. -/
def maskCell (var : Fin maskVars) (power : Fin maskCoeffs) : Fin maskLen :=
  ⟨var.val * maskRowStride + power.val, maskCell_lt var power⟩

/-- Every coefficient has a cell of its own. -/
theorem maskCell_injective {var var' : Fin maskVars} {power power' : Fin maskCoeffs}
    (same : maskCell var power = maskCell var' power') : var = var' ∧ power = power' := by
  have value : var.val * 16 + power.val = var'.val * 16 + power'.val := congrArg Fin.val same
  have := power.isLt
  have := power'.isLt
  simp only [maskCoeffs] at *
  exact ⟨Fin.ext (by omega), Fin.ext (by omega)⟩

theorem maskCoefficient_eq_dite (mask : ZkMleCheckMaskView K) (var : Fin maskVars) (power : Nat) :
    maskCoefficient F mask var power = if inside : power < maskCoeffs then
      algebraMap K F (mask (maskCell var ⟨power, inside⟩)) else 0 := by
  rw [maskCoefficient, embeddedCoefficients, coefficientsForVar, List.map_ofFn,
    List.getD_eq_getElem?_getD, List.getElem?_ofFn]
  split <;> rfl

/-- A coefficient within the degree is its cell. -/
theorem maskCoefficient_eq (mask : ZkMleCheckMaskView K) (var : Fin maskVars)
    (power : Fin maskCoeffs) :
    maskCoefficient F mask var power = algebraMap K F (mask (maskCell var power)) := by
  rw [maskCoefficient_eq_dite, dif_pos power.isLt]

@[simp] theorem length_embeddedCoefficients (mask : ZkMleCheckMaskView K) (var : Fin maskVars) :
    (embeddedCoefficients F mask var).length = 11 := by
  simp [embeddedCoefficients, coefficientsForVar]

theorem maskCoefficient_zero (var : Fin maskVars) (power : Nat) :
    maskCoefficient F (0 : ZkMleCheckMaskView K) var power = 0 := by
  simp [maskCoefficient_eq_dite]

/-- Coefficients add cell by cell. -/
theorem maskCoefficient_add (first second : ZkMleCheckMaskView K) (var : Fin maskVars)
    (power : Nat) : maskCoefficient F (first + second) var power =
      maskCoefficient F first var power + maskCoefficient F second var power := by
  simp only [maskCoefficient_eq_dite]
  split <;> simp

/-- The line through a univariate's values at zero and one. -/
theorem endpointLine_eq (mask : ZkMleCheckMaskView K) (var : Fin maskVars) (z : F) :
    endpointLine mask var z = maskCoefficient F mask var 0 +
      z * ∑ power ∈ Finset.range 10, maskCoefficient F mask var (power + 1) := by
  have whole : (embeddedCoefficients F mask var).foldl (· + ·) 0 =
      ∑ power ∈ Finset.range 11, maskCoefficient F mask var power := by
    rw [foldl_add_eq_sum (by simp : (embeddedCoefficients F mask var).length ≤ 11), zero_add]
    rfl
  have head : (embeddedCoefficients F mask var).headD 0 = maskCoefficient F mask var 0 := by
    rw [maskCoefficient, List.headD_eq_head?_getD, List.head?_eq_getElem?, List.getD_eq_getElem?_getD]
  rw [endpointLine, whole, head, Finset.sum_range_succ' _ 10, add_sub_cancel_right]

/-- A univariate of the mask is a polynomial of degree ten. -/
theorem evaluateUnivariate_eq (mask : ZkMleCheckMaskView K) (var : Fin maskVars) (x : F) :
    evaluateUnivariate mask var x =
      ∑ power ∈ Finset.range 11, maskCoefficient F mask var power * x ^ power := by
  rw [evaluateUnivariate,
    evaluateCoefficients_eq_sum (by simp : (embeddedCoefficients F mask var).length ≤ 11)]
  rfl

theorem foldl_finRange_eq_sum (term : Fin maskVars → F) :
    (List.finRange maskVars).foldl (fun value var => value + term var) 0 = ∑ var, term var := by
  rw [Fin.sum_univ_def, List.sum_eq_foldl, List.foldl_map]

/-- The point a run ends at, with the variables in order. -/
def terminalOf (challenges : Fin maskVars → F) : Fin maskVars → F :=
  fun var => challenges (variableOfRound var)

/-- What the messages make of the mask: the value at the input point, the masked coefficients of each
round and the final value. -/
def libraMask (K : Type) [Field K] [Algebra K F] (lambda : F)
    (rho challenges : Fin maskVars → F) :
    ZkMleCheckMaskView K →+ F × (Fin maskVars → Fin 10 → F) × F where
  toFun mask := (evaluateMle mask rho,
    fun round power => lambda * maskCoefficient F mask (variableOfRound round) (power + 1),
    evaluateFinal mask (terminalOf challenges))
  map_zero' := by
    simp only [evaluateMle, evaluateFinal, foldl_finRange_eq_sum, endpointLine_eq,
      evaluateUnivariate_eq, maskCoefficient_zero]
    simp
    rfl
  map_add' first second := by
    simp only [evaluateMle, evaluateFinal, foldl_finRange_eq_sum, endpointLine_eq,
      evaluateUnivariate_eq, maskCoefficient_add]
    refine Prod.ext ?_ (Prod.ext ?_ ?_)
    · simp only [Prod.fst_add, ← Finset.sum_add_distrib]
      refine Finset.sum_congr rfl fun var _ => ?_
      rw [Finset.sum_add_distrib]
      ring
    · funext round power
      exact mul_add _ _ _
    · simp only [Prod.snd_add, ← Finset.sum_add_distrib]
      refine Finset.sum_congr rfl fun var _ => Finset.sum_congr rfl fun power _ => ?_
      ring

/-! ## Main rounds -/

/-- The main claim before a round. -/
def runningClaim (mainRounds : Fin maskVars → List F) (challenges : Fin maskVars → F) : Nat → F
  | 0 => 0
  | round + 1 =>
    if inside : round < maskVars then
      evaluateCoefficients (mainRounds ⟨round, inside⟩) (challenges ⟨round, inside⟩)
    else 0

/-- Main round polynomials of degree at most ten that start from claim zero, follow the endpoint
recursion and end in `final`. -/
structure MainRounds (rho challenges : Fin maskVars → F) (mainRounds : Fin maskVars → List F)
    (final : F) : Prop where
  nonempty : ∀ round, mainRounds round ≠ []
  degree : ∀ round, (mainRounds round).length ≤ 11
  endpoint : ∀ round, mlecheckEndpointClaim (mainRounds round) (rho (variableOfRound round)) =
    runningClaim mainRounds challenges round
  final_eq : runningClaim mainRounds challenges maskVars = final

/-- The nonconstant main coefficients. -/
def mainCoefficient (mainRounds : Fin maskVars → List F) (round : Fin maskVars) (power : Nat) : F :=
  (mainRounds round).getD (power + 1) 0

variable {rho challenges : Fin maskVars → F} {mainRounds : Fin maskVars → List F} {final : F}

/-- The rounds telescope: the nonconstant coefficients alone give the final value. -/
theorem MainRounds.telescope (main : MainRounds rho challenges mainRounds final) :
    ∑ round, ∑ power ∈ Finset.range 10, mainCoefficient mainRounds round power *
      (challenges round ^ (power + 1) - rho (variableOfRound round)) = final := by
  have round (round : Fin maskVars) :
      ∑ power ∈ Finset.range 10, mainCoefficient mainRounds round power *
        (challenges round ^ (power + 1) - rho (variableOfRound round)) =
      runningClaim mainRounds challenges (round + 1) - runningClaim mainRounds challenges round := by
    rw [← main.endpoint round, runningClaim, dif_pos round.isLt]
    exact (evaluate_sub_endpoint (main.degree round) _ _).symm
  rw [Finset.sum_congr rfl fun index _ => round index,
    Fin.sum_univ_eq_sum_range (fun index => runningClaim mainRounds challenges (index + 1) -
      runningClaim mainRounds challenges index), Finset.sum_range_sub, main.final_eq]
  exact sub_zero final

/-! ## The messages -/

/-- A truncated round. -/
def roundProofOf (mask : ZkMleCheckMaskView K) (lambda : F) (mainRounds : Fin maskVars → List F)
    (round : Fin maskVars) : List F :=
  List.ofFn fun power : Fin 10 => mainCoefficient mainRounds round power +
    lambda * maskCoefficient F mask (variableOfRound round) (power + 1)

theorem tail_addOnto (mask : ZkMleCheckMaskView K) (lambda offset : F)
    (mainRounds : Fin maskVars → List F) (round : Fin maskVars) :
    (addOnto (((embeddedCoefficients F mask (variableOfRound round)).modifyHead (· + offset)).map
      (lambda * ·)) (mainRounds round)).tail = roundProofOf mask lambda mainRounds round := by
  have length := length_embeddedCoefficients (F := F) mask (variableOfRound round)
  refine List.ext_getElem? fun power => ?_
  rw [List.getElem?_tail, addOnto_eq, List.getElem?_mapIdx, roundProofOf, List.getElem?_ofFn]
  unfold mainCoefficient maskCoefficient
  generalize embeddedCoefficients F mask (variableOfRound round) = coeffs at length
  cases coeffs with
  | nil => cases length
  | cons constant rest =>
    have short : rest.length = 10 := by simpa using length
    rw [List.modifyHead_cons, List.map_cons, List.getElem?_cons_succ, List.getElem?_map]
    by_cases inside : power < 10
    · have within : power < rest.length := by omega
      have read : rest.getD power 0 = rest[power] := List.getD_eq_getElem rest 0 within
      rw [dif_pos inside, List.getD_cons_succ, read, List.getElem?_eq_getElem within]
      simp [add_comm]
    · rw [dif_neg inside, List.getElem?_eq_none (by omega)]
      rfl

variable [DecidableEq F]

variable {mask : ZkMleCheckMaskView K} {lambda : F}

/-- One round of the owner publishes the masked coefficients above the constant one. -/
theorem ownerRound_eq (nonzero : lambda ≠ 0) (main : MainRounds rho challenges mainRounds final)
    {state : OwnerRounds F} {round : Fin maskVars} (length : state.priorChallenges.length = round)
    (claim : state.mainRunningClaim = runningClaim mainRounds challenges round) :
    ownerRound mask rho lambda mainRounds challenges state round = .ok {
      priorChallenges := state.priorChallenges ++ [challenges round]
      mainRunningClaim := runningClaim mainRounds challenges (round + 1)
      roundProofs := state.roundProofs ++ [roundProofOf mask lambda mainRounds round] } := by
  have early : ¬ maskVars ≤ state.priorChallenges.length := by
    rw [length]
    exact Nat.not_le.mpr round.isLt
  have degree : ¬ maskCoeffs < (mainRounds round).length := Nat.not_lt.mpr (main.degree round)
  have filled : (mainRounds round).isEmpty = false := by simpa using main.nonempty round
  have sized (offset : F) : (addOnto (((embeddedCoefficients F mask
      (variableOfRound round)).modifyHead (· + offset)).map (lambda * ·))
        (mainRounds round)).length = maskCoeffs := by
    rw [addOnto_eq, List.length_mapIdx, List.length_map, List.length_modifyHead, length_embeddedCoefficients]
  rw [ownerRound, main.endpoint round, ← claim, reject, if_neg (by simp), roundCoefficients,
    if_neg early, length]
  simp only [combineMainAndMaskRound, truncate, nonzero, filled, degree, sized, tail_addOnto,
    bind, Except.bind, if_false, ne_eq, not_true_eq_false, Bool.false_eq_true, pure, Except.pure]
  rw [runningClaim, dif_pos round.isLt]

/-- The loop runs through, and its proofs are the truncated rounds. -/
theorem foldlM_ownerRound (mask : ZkMleCheckMaskView K) (nonzero : lambda ≠ 0)
    (main : MainRounds rho challenges mainRounds final) (count : Nat) (inside : count ≤ maskVars) :
    ((List.finRange maskVars).take count).foldlM
        (ownerRound mask rho lambda mainRounds challenges)
        { priorChallenges := [], mainRunningClaim := 0, roundProofs := [] } =
      .ok {
        priorChallenges := ((List.finRange maskVars).take count).map challenges
        mainRunningClaim := runningClaim mainRounds challenges count
        roundProofs := ((List.finRange maskVars).take count).map
          (roundProofOf mask lambda mainRounds) } := by
  induction count with
  | zero => rfl
  | succ count ih =>
    have within : count < (List.finRange maskVars).length := by
      rw [List.length_finRange]
      exact inside
    have next : (List.finRange maskVars)[count] = ⟨count, inside⟩ := by
      apply Fin.ext
      rw [List.getElem_finRange]
      rfl
    rw [List.take_succ_eq_append_getElem within, next, List.foldlM_append,
      ih (Nat.le_of_succ_le inside)]
    change (ownerRound mask rho lambda mainRounds challenges _ ⟨count, inside⟩ >>= pure) = _
    rw [ownerRound_eq nonzero main (by simp; omega) rfl, List.map_append, List.map_append]
    rfl

/-- All rounds of the owner: the input claim, the rounds and the final claim of the mask. -/
theorem publishedMessages_eq (mask : ZkMleCheckMaskView K) (nonzero : lambda ≠ 0)
    (main : MainRounds rho challenges mainRounds final) :
    publishedMessages mask rho lambda mainRounds challenges =
      .ok (evaluateMle mask rho,
        (List.finRange maskVars).map (roundProofOf mask lambda mainRounds),
        evaluateFinal mask (terminalOf challenges)) := by
  have run := foldlM_ownerRound mask nonzero main maskVars le_rfl
  rw [List.take_of_length_le (by simp)] at run
  rw [publishedMessages, reject, if_neg nonzero, run]
  rfl

/-- The messages as they are published. -/
def messageLists (values : F × (Fin maskVars → Fin 10 → F) × F) :
    Except ZkMleCheckError (F × List (List F) × F) :=
  .ok (values.1, (List.finRange maskVars).map fun round => List.ofFn (values.2.1 round), values.2.2)

omit [Field F] [DecidableEq F] in
/-- The messages determine the masked values behind them. -/
theorem messageLists_injective : Function.Injective (messageLists : _ → Except _ (F × _ × F)) := by
  rintro ⟨mu, rounds, final⟩ ⟨mu', rounds', final'⟩ same
  simp only [messageLists, Except.ok.injEq, Prod.mk.injEq] at same
  obtain ⟨rfl, lists, rfl⟩ := same
  have each : ∀ round ∈ List.finRange maskVars,
      List.ofFn (rounds round) = List.ofFn (rounds' round) := List.map_inj_left.mp lists
  have table : rounds = rounds' :=
    funext fun round => List.ofFn_injective (each round (List.mem_finRange round))
  rw [table]

/-- The distribution of the messages when the 256 mask cells are drawn uniformly. -/
noncomputable def messageDistribution (K : Type) [Field K] [Algebra K F] [Fintype K]
    (rho : Fin maskVars → F) (lambda : F) (mainRounds : Fin maskVars → List F)
    (challenges : Fin maskVars → F) : PMF (Except ZkMleCheckError (F × List (List F) × F)) :=
  (PMF.uniformOfFintype (ZkMleCheckMaskView K)).map
    (fun mask => publishedMessages mask rho lambda mainRounds challenges)

/-- The messages of nonconstant coefficients on their own. -/
def unmasked (coefficients : Fin maskVars → Nat → F) : F × (Fin maskVars → Fin 10 → F) × F :=
  (0, fun round power => coefficients round power, 0)

/-- So the distribution of the messages is that of the masked values. -/
theorem messageDistribution_eq_masked [Fintype K] (nonzero : lambda ≠ 0)
    (main : MainRounds rho challenges mainRounds final) :
    messageDistribution K rho lambda mainRounds challenges =
      (masked (libraMask K lambda rho challenges) (unmasked (mainCoefficient mainRounds))).map
        messageLists := by
  have published (mask : ZkMleCheckMaskView K) :
      publishedMessages mask rho lambda mainRounds challenges =
        messageLists (unmasked (mainCoefficient mainRounds) +
          libraMask K lambda rho challenges mask) := by
    rw [publishedMessages_eq mask nonzero main]
    simp [messageLists, unmasked, libraMask, roundProofOf]
  rw [messageDistribution, masked, PMF.map_comp]
  simp only [published, Function.comp_def]

/-! ## Which differences a mask can make up -/

/-- Rounds bind the variables from the highest, and the reversal is its own inverse. -/
theorem variableOfRound_variableOfRound (round : Fin maskVars) :
    variableOfRound (variableOfRound round) = round := by
  have := round.isLt
  refine Fin.ext ?_
  simp only [variableOfRound, maskVars] at *
  omega

omit [Field F] [DecidableEq F] in
theorem terminalOf_variableOfRound (challenges : Fin maskVars → F) (round : Fin maskVars) :
    terminalOf challenges (variableOfRound round) = challenges round :=
  congrArg challenges (variableOfRound_variableOfRound round)

omit [DecidableEq F] in
/-- A sum over the variables, taken in the order of the rounds. -/
theorem sum_variableOfRound (term : Fin maskVars → F) :
    ∑ round : Fin maskVars, term (variableOfRound round) = ∑ var, term var :=
  Equiv.sum_comp (Function.Involutive.toPerm (fun round => variableOfRound round)
    variableOfRound_variableOfRound) term

omit [DecidableEq F] in
/-- The input claim of the mask, in its coefficients. -/
theorem evaluateMle_eq (mask : ZkMleCheckMaskView K) (rho : Fin maskVars → F) :
    evaluateMle mask rho = ∑ var, maskCoefficient F mask var 0 +
      ∑ round : Fin maskVars, rho (variableOfRound round) * ∑ power ∈ Finset.range 10,
        maskCoefficient F mask (variableOfRound round) (power + 1) := by
  rw [sum_variableOfRound (fun var => rho var * ∑ power ∈ Finset.range 10,
    maskCoefficient F mask var (power + 1)), ← Finset.sum_add_distrib, evaluateMle,
    foldl_finRange_eq_sum]
  exact Finset.sum_congr rfl fun var _ => endpointLine_eq mask var (rho var)

omit [DecidableEq F] in
/-- The final claim of the mask, in its coefficients. -/
theorem evaluateFinal_eq (mask : ZkMleCheckMaskView K) (challenges : Fin maskVars → F) :
    evaluateFinal mask (terminalOf challenges) = ∑ var, maskCoefficient F mask var 0 +
      ∑ round : Fin maskVars, ∑ power ∈ Finset.range 10,
        maskCoefficient F mask (variableOfRound round) (power + 1) *
          challenges round ^ (power + 1) := by
  have rounds : ∑ round : Fin maskVars, ∑ power ∈ Finset.range 10,
      maskCoefficient F mask (variableOfRound round) (power + 1) * challenges round ^ (power + 1) =
      ∑ var, ∑ power ∈ Finset.range 10,
        maskCoefficient F mask var (power + 1) * terminalOf challenges var ^ (power + 1) := by
    rw [← sum_variableOfRound (fun var => ∑ power ∈ Finset.range 10,
      maskCoefficient F mask var (power + 1) * terminalOf challenges var ^ (power + 1))]
    simp only [terminalOf_variableOfRound]
  rw [rounds, ← Finset.sum_add_distrib, evaluateFinal, foldl_finRange_eq_sum]
  refine Finset.sum_congr rfl fun var _ => ?_
  rw [evaluateUnivariate_eq, Finset.sum_range_succ', pow_zero, mul_one, add_comm]

omit [Field F] [Algebra K F] [DecidableEq F] in
/-- A mask with given active coefficients. -/
theorem exists_mask (value : Fin maskVars → Fin maskCoeffs → K) :
    ∃ mask : ZkMleCheckMaskView K, ∀ var power, mask (maskCell var power) = value var power := by
  have injective : Function.Injective
      (fun place : Fin maskVars × Fin maskCoeffs => maskCell place.1 place.2) := by
    rintro ⟨var, power⟩ ⟨var', power'⟩ same
    obtain ⟨rfl, rfl⟩ := maskCell_injective same
    rfl
  exact ⟨Function.extend (fun place : Fin maskVars × Fin maskCoeffs => maskCell place.1 place.2)
    (fun place => value place.1 place.2) 0, fun var power => injective.extend_apply _ _ (var, power)⟩

/-- The mask that `gaps` asks for: `lambda` times its nonconstant coefficients are the gaps. -/
def Covers (mask : ZkMleCheckMaskView K) (lambda : F) (gaps : Fin maskVars → Nat → F) : Prop :=
  ∀ round : Fin maskVars, ∀ power < 10,
    maskCoefficient F mask (variableOfRound round) (power + 1) = gaps round power / lambda

/-- The gaps, combined at the input point. -/
def inputGap (rho : Fin maskVars → F) (gaps : Fin maskVars → Nat → F) : F :=
  ∑ round : Fin maskVars, rho (variableOfRound round) *
    ∑ power ∈ Finset.range 10, gaps round power

variable {gaps : Fin maskVars → Nat → F}

omit [DecidableEq F] in
/-- A mask that covers the gaps of two runs has the input claim those gaps require. -/
theorem Covers.evaluateMle (covers : Covers mask lambda gaps) (rho : Fin maskVars → F) :
    evaluateMle mask rho =
      ∑ var, maskCoefficient F mask var 0 + inputGap rho gaps / lambda := by
  rw [evaluateMle_eq, inputGap, Finset.sum_div]
  congr 1
  refine Finset.sum_congr rfl fun round _ => ?_
  rw [mul_div_assoc, Finset.sum_div]
  congr 1
  exact Finset.sum_congr rfl fun power inside => covers round power (Finset.mem_range.mp inside)

omit [DecidableEq F] in
/-- When the gaps cancel over the rounds, the final value is the value at the input point. -/
theorem Covers.evaluateFinal (covers : Covers mask lambda gaps)
    (cancel : ∑ round, ∑ power ∈ Finset.range 10, gaps round power *
      (challenges round ^ (power + 1) - rho (variableOfRound round)) = 0) :
    evaluateFinal mask (terminalOf challenges) =
      ∑ var, maskCoefficient F mask var 0 + inputGap rho gaps / lambda := by
  have rounds : inputGap rho gaps = ∑ round, ∑ power ∈ Finset.range 10,
      gaps round power * challenges round ^ (power + 1) := by
    refine (sub_eq_zero.mp ?_).symm
    rw [inputGap, ← Finset.sum_sub_distrib, ← cancel]
    refine Finset.sum_congr rfl fun round _ => ?_
    rw [Finset.mul_sum, ← Finset.sum_sub_distrib]
    refine Finset.sum_congr rfl fun power _ => ?_
    ring
  rw [evaluateFinal_eq, rounds, Finset.sum_div]
  congr 1
  refine Finset.sum_congr rfl fun round _ => ?_
  rw [Finset.sum_div]
  refine Finset.sum_congr rfl fun power inside => ?_
  rw [covers round power (Finset.mem_range.mp inside), div_mul_eq_mul_div]

omit [DecidableEq F] in
/-- A mask that covers the gaps and has given constants, all but one of them zero. -/
theorem exists_covers
    (covered : ∀ round, ∀ power < 10, gaps round power / lambda ∈ Set.range (algebraMap K F))
    (constant : K) : ∃ mask : ZkMleCheckMaskView K, Covers mask lambda gaps ∧
      ∑ var, maskCoefficient F mask var 0 = algebraMap K F constant := by
  choose cell cellEq using covered
  obtain ⟨mask, active⟩ := exists_mask (K := K) fun var => Fin.cons (if var = 0 then constant else 0)
    (fun power => cell (variableOfRound var) power power.isLt)
  refine ⟨mask, fun round power inside => ?_, ?_⟩
  · have read := maskCoefficient_eq (F := F) mask (variableOfRound round) (Fin.succ ⟨power, inside⟩)
    rw [active, Fin.cons_succ, variableOfRound_variableOfRound, cellEq] at read
    exact read
  · have each (var : Fin maskVars) : maskCoefficient F mask var 0 =
        if var = 0 then algebraMap K F constant else 0 := by
      have read := maskCoefficient_eq (F := F) mask var 0
      rw [active, Fin.cons_zero] at read
      refine Eq.trans read ?_
      split <;> simp
    rw [Finset.sum_congr rfl fun var _ => each var]
    simp

omit [DecidableEq F] in
/-- Differences of coefficients that cancel in the final value are a mask's doing exactly when they
and their combination at the input point are `lambda` times base-field elements. -/
theorem mem_range_libraMask (nonzero : lambda ≠ 0)
    (cancel : ∑ round, ∑ power ∈ Finset.range 10, gaps round power *
      (challenges round ^ (power + 1) - rho (variableOfRound round)) = 0) :
    unmasked gaps ∈ (libraMask K lambda rho challenges).range ↔
      (∀ round, ∀ power < 10, gaps round power / lambda ∈ Set.range (algebraMap K F)) ∧
        inputGap rho gaps / lambda ∈ Set.range (algebraMap K F) := by
  have hits (mask : ZkMleCheckMaskView K) : libraMask K lambda rho challenges mask = unmasked gaps ↔
      evaluateMle mask rho = 0 ∧ Covers mask lambda gaps ∧
        evaluateFinal mask (terminalOf challenges) = 0 := by
    simp only [libraMask, unmasked, AddMonoidHom.coe_mk, ZeroHom.coe_mk, Prod.mk.injEq, Covers,
      eq_div_iff nonzero, funext_iff]
    refine and_congr_right fun _ => and_congr_left fun _ => forall_congr' fun round => ?_
    constructor
    · intro each power inside
      rw [mul_comm]
      exact each ⟨power, inside⟩
    · intro each power
      rw [mul_comm]
      exact each power power.isLt
  constructor
  · rintro ⟨mask, image⟩
    obtain ⟨mle, covers, -⟩ := (hits mask).mp image
    refine ⟨fun round power inside => ?_, ?_⟩
    · rw [← covers round power inside]
      exact ⟨_, (maskCoefficient_eq mask (variableOfRound round)
        (Fin.succ (⟨power, inside⟩ : Fin 10))).symm⟩
    · -- At the input point the gaps cancel against the eleven constants.
      have constants : ∑ var, maskCoefficient F mask var 0 =
          algebraMap K F (∑ var, mask (maskCell var 0)) := by
        rw [map_sum]
        exact Finset.sum_congr rfl fun var _ => maskCoefficient_eq mask var 0
      rw [covers.evaluateMle, constants, add_eq_zero_iff_neg_eq] at mle
      exact ⟨-∑ var, mask (maskCell var 0), by rw [map_neg, mle]⟩
  · rintro ⟨covered, base, combined⟩
    obtain ⟨mask, covers, constants⟩ := exists_covers covered (-base)
    have cancels : ∑ var, maskCoefficient F mask var 0 + inputGap rho gaps / lambda = 0 := by
      rw [constants, ← combined, map_neg, neg_add_cancel]
    refine ⟨mask, (hits mask).mpr ⟨?_, covers, ?_⟩⟩
    · rw [covers.evaluateMle, cancels]
    · rw [covers.evaluateFinal cancel, cancels]

/-- Over any extension: two sequences of main rounds with one final value are published alike
exactly when the mask can make up their difference. -/
theorem messageDistribution_eq_iff [Fintype K] (nonzero : lambda ≠ 0)
    {first second : Fin maskVars → List F} (one : MainRounds rho challenges first final)
    (two : MainRounds rho challenges second final) :
    messageDistribution K rho lambda first challenges =
        messageDistribution K rho lambda second challenges ↔
      (∀ round, ∀ power < 10, (mainCoefficient first round power -
        mainCoefficient second round power) / lambda ∈ Set.range (algebraMap K F)) ∧
        inputGap rho (fun round power => mainCoefficient first round power -
          mainCoefficient second round power) / lambda ∈ Set.range (algebraMap K F) := by
  have cancel : ∑ round, ∑ power ∈ Finset.range 10,
      (mainCoefficient first round power - mainCoefficient second round power) *
        (challenges round ^ (power + 1) - rho (variableOfRound round)) = 0 := by
    simp only [sub_mul, Finset.sum_sub_distrib]
    rw [one.telescope, two.telescope, sub_self]
  rw [messageDistribution_eq_masked nonzero one, messageDistribution_eq_masked nonzero two,
    map_eq_map_iff messageLists_injective, masked_eq_iff, ← mem_range_libraMask nonzero cancel]
  simp only [unmasked, Prod.mk_sub_mk, sub_self]
  rfl

end Mask

/-! ## Rounds that vanish at both ends -/

section LastRound

variable {F : Type} [Field F]

/-- Eleven main rounds, all zero but the last. -/
def lastRound (coeffs : List F) : Fin maskVars → List F :=
  fun round => if round = 10 then coeffs else [0]

/-- Nothing happens before the last round. -/
theorem runningClaim_lastRound {coeffs : List F} {challenges : Fin maskVars → F}
    {round : Nat} (early : round ≤ 10) : runningClaim (lastRound coeffs) challenges round = 0 := by
  cases round with
  | zero => rfl
  | succ round =>
    have inside : round < maskVars := by
      simp only [maskVars]
      omega
    have other : (⟨round, inside⟩ : Fin maskVars) ≠ 10 := fun same => by
      have value : round = 10 := congrArg Fin.val same
      omega
    rw [runningClaim, dif_pos inside, lastRound, if_neg other, evaluateCoefficients]
    simp

/-- A last round that is zero at both its ends. -/
theorem mainRounds_lastRound {coeffs : List F} {rho challenges : Fin maskVars → F}
    (nonempty : coeffs ≠ []) (degree : coeffs.length ≤ 11)
    (endpoint : mlecheckEndpointClaim coeffs (rho 0) = 0)
    (ends : evaluateCoefficients coeffs (challenges 10) = 0) :
    MainRounds rho challenges (lastRound coeffs) 0 where
  nonempty round := by
    unfold lastRound
    split
    · exact nonempty
    · simp
  degree round := by
    unfold lastRound
    split
    · exact degree
    · simp
  endpoint round := by
    have early : round.val ≤ 10 := Nat.le_of_lt_succ round.isLt
    rw [runningClaim_lastRound early, lastRound]
    split
    case isTrue last =>
      rw [last]
      exact endpoint
    case isFalse => simp [mlecheckEndpointClaim]
  final_eq := by
    rw [runningClaim, dif_pos (by decide)]
    exact ends

/-- A polynomial of degree two, scaled by `c`, whose endpoint claim at `c` and whose value at `d` are
zero. -/
def movingRound (c d : F) : List F :=
  [c * (c * (c + d * d + (c + d))), c * (c + d * d), c * (c + d)]

/-- The moving round is a last round. -/
theorem movingRound_main (double : (2 : F) = 0) (c d : F) :
    MainRounds (fun _ => c) (fun _ => d) (lastRound (movingRound c d)) 0 := by
  refine mainRounds_lastRound (by simp [movingRound]) (by simp [movingRound]) ?_ ?_
  · simp only [movingRound, mlecheckEndpointClaim, List.foldl_cons, List.foldl_nil, zero_add]
    linear_combination c * c * (c + d * d + (c + d)) * double
  · simp only [movingRound, evaluateCoefficients_cons, evaluateCoefficients_nil]
    linear_combination c * (c + d) * (c + d * d) * double

/-- A polynomial of degree four, scaled by `c`: it vanishes at zero, at one, at `c` and at `d`. -/
def baseRound (c d : F) : List F :=
  [0, c * (c * d), c * (c * d + (c + d)), c * (1 + (c + d)), c]

/-- The base round is a last round. -/
theorem baseRound_main (double : (2 : F) = 0) (c d : F) :
    MainRounds (fun _ => c) (fun _ => d) (lastRound (baseRound c d)) 0 := by
  refine mainRounds_lastRound (by simp [baseRound]) (by simp [baseRound]) ?_ ?_
  · simp only [baseRound, mlecheckEndpointClaim, List.foldl_cons, List.foldl_nil, zero_add]
    linear_combination c * c * (c * d + c + d + 1) * double
  · simp only [baseRound, evaluateCoefficients_cons, evaluateCoefficients_nil]
    linear_combination c * d * (d + 1) * (d * d + c * d) * double

/-- The zero round is a last round. -/
theorem quietRound_main (c d : F) :
    MainRounds (fun _ => c) (fun _ => d) (lastRound [0]) 0 :=
  mainRounds_lastRound (by simp) (by simp) (by simp [mlecheckEndpointClaim])
    (by simp [evaluateCoefficients])

end LastRound

/-! ## The tower -/

section Tower

open Tower

/-- Two sequences of main rounds that start from claim zero and end in one final value have one
distribution of messages exactly when, divided by `lambda`, every difference of nonconstant
coefficients and their combination at the input point lie in the base subfield. -/
theorem libra_mask_hides_iff (lambda : Block256) (nonzero : lambda ≠ 0)
    (rho challenges : Fin maskVars → Block256) (first second : Fin maskVars → List Block256)
    (final : Block256) (one : MainRounds rho challenges first final)
    (two : MainRounds rho challenges second final) :
    messageDistribution Block128 rho lambda first challenges =
        messageDistribution Block128 rho lambda second challenges ↔
      (∀ round, ∀ power < 10, ((mainCoefficient first round power -
        mainCoefficient second round power) / lambda).hi = 0) ∧
        (inputGap rho (fun round power => mainCoefficient first round power -
          mainCoefficient second round power) / lambda).hi = 0 := by
  rw [messageDistribution_eq_iff nonzero one two]
  simp only [Quadratic.mem_range_algebraMap]

/-- The linear coefficient of the moving round, over its scale. -/
def slope : Block256 := zeroChallenge + conjugateChallenge * conjugateChallenge

/-- The slope is not of the base field. -/
theorem slope_hi : slope.hi ≠ 0 := by
  have high : slope.hi = Block128.tau * (1 + Block128.tau) := by
    rw [slope, zeroChallenge_eq, conjugateChallenge_eq]
    simp only [Quadratic.add_hi, Quadratic.mul_hi]
    linear_combination Block128.tau * Block128.tau * (CharTwo.two_eq_zero : (2 : Block128) = 0)
  rw [high]
  refine mul_ne_zero Block128.tau_ne_zero fun zero => ?_
  have one : (1 : Block128) = Block128.tau := CharTwo.add_eq_zero.mp zero
  have low : (1 : Block64) = 0 := congrArg Quadratic.lo one
  exact one_ne_zero low

/-- The nonconstant coefficients of the base round at two conjugate challenges, over its scale. -/
def baseCoefficients : List Block128 :=
  let cube := Block128.tau * Block128.tau * Block128.tau
  [cube, cube + Block128.tau, 1 + Block128.tau, 1]

/-- They sum to zero. -/
theorem baseCoefficients_sum : ∑ power ∈ Finset.range 10, baseCoefficients.getD power 0 = 0 := by
  have listed : ∑ power ∈ Finset.range 10, baseCoefficients.getD power 0 = baseCoefficients.sum := by
    simp only [Finset.sum_range_succ, Finset.sum_range_zero, baseCoefficients, List.getD_cons_zero,
      List.getD_cons_succ, List.getD_nil, List.sum_cons, List.sum_nil, zero_add, add_zero, add_assoc]
  rw [listed]
  simp only [baseCoefficients, List.sum_cons, List.sum_nil]
  linear_combination (Block128.tau * Block128.tau * Block128.tau + Block128.tau + 1) *
    (CharTwo.two_eq_zero : (2 : Block128) = 0)

/-- The coefficients of the base round are the scale times elements of the base field. -/
theorem baseRound_coefficient (power : Nat) :
    (baseRound zeroChallenge conjugateChallenge).getD (power + 1) 0 =
      zeroChallenge * algebraMap Block128 Block256 (baseCoefficients.getD power 0) := by
  match power with
  | 0 =>
    change zeroChallenge * (zeroChallenge * conjugateChallenge) = _
    rw [challenges_mul]
    rfl
  | 1 =>
    change zeroChallenge * (zeroChallenge * conjugateChallenge +
      (zeroChallenge + conjugateChallenge)) = _
    rw [challenges_mul, challenges_add, ← map_add]
    rfl
  | 2 =>
    change zeroChallenge * (1 + (zeroChallenge + conjugateChallenge)) = _
    rw [challenges_add, ← map_one (algebraMap Block128 Block256), ← map_add]
    rfl
  | 3 =>
    change zeroChallenge = zeroChallenge * algebraMap Block128 Block256 1
    rw [map_one, mul_one]
  | power + 4 =>
    change (0 : Block256) = zeroChallenge * algebraMap Block128 Block256 0
    rw [map_zero, mul_zero]

/-- The difference of the quiet and the base round, over the scale, is of the base field. -/
theorem baseRound_gap (round : Fin maskVars) (power : Nat) :
    mainCoefficient (lastRound [0]) round power -
        mainCoefficient (lastRound (baseRound zeroChallenge conjugateChallenge)) round power =
      zeroChallenge * algebraMap Block128 Block256
        (if round = 10 then -baseCoefficients.getD power 0 else 0) := by
  unfold mainCoefficient lastRound
  split
  · rw [baseRound_coefficient, List.getD_cons_succ, List.getD_nil, zero_sub, map_neg, mul_neg]
  · rw [sub_self, map_zero, mul_zero]

/-- A last round with coefficients in the base field, over the scale, is hidden: the messages of the
quiet and the base round have one distribution. -/
theorem libra_mask_hides_baseRound :
    messageDistribution Block128 (fun _ => zeroChallenge) zeroChallenge (lastRound [0])
        (fun _ => conjugateChallenge) =
      messageDistribution Block128 (fun _ => zeroChallenge) zeroChallenge
        (lastRound (baseRound zeroChallenge conjugateChallenge)) (fun _ => conjugateChallenge) := by
  rw [libra_mask_hides_iff zeroChallenge zeroChallenge_ne_zero _ _ _ _ 0 (quietRound_main _ _)
    (baseRound_main CharTwo.two_eq_zero _ _)]
  simp only [baseRound_gap, inputGap]
  constructor
  · intro round power _
    rw [mul_div_cancel_left₀ _ zeroChallenge_ne_zero, Quadratic.algebraMap_hi]
  · have cancels (round : Fin maskVars) : ∑ power ∈ Finset.range 10, zeroChallenge *
        algebraMap Block128 Block256 (if round = 10 then -baseCoefficients.getD power 0 else 0) = 0 := by
      rw [← Finset.mul_sum, ← map_sum]
      split
      · rw [Finset.sum_neg_distrib, baseCoefficients_sum, neg_zero, map_zero, mul_zero]
      · rw [Finset.sum_const_zero, map_zero, mul_zero]
    simp only [cancels, mul_zero, Finset.sum_const_zero, zero_div, Quadratic.zero_hi]

/-- Two sequences from claim zero to final value zero that the messages tell apart. -/
theorem libra_mask_leaks :
    MainRounds (fun _ => zeroChallenge) (fun _ => conjugateChallenge) (lastRound [0]) 0 ∧
    MainRounds (fun _ => zeroChallenge) (fun _ => conjugateChallenge)
      (lastRound (movingRound zeroChallenge conjugateChallenge)) 0 ∧
    messageDistribution Block128 (fun _ => zeroChallenge) zeroChallenge (lastRound [0])
        (fun _ => conjugateChallenge) ≠
      messageDistribution Block128 (fun _ => zeroChallenge) zeroChallenge
        (lastRound (movingRound zeroChallenge conjugateChallenge)) (fun _ => conjugateChallenge) := by
  refine ⟨quietRound_main _ _, movingRound_main CharTwo.two_eq_zero _ _, ?_⟩
  intro same
  rw [messageDistribution_eq_iff zeroChallenge_ne_zero (quietRound_main _ _)
    (movingRound_main CharTwo.two_eq_zero _ _)] at same
  have linear := (Quadratic.mem_range_algebraMap _).mp (same.1 10 0 (by decide))
  have gap : mainCoefficient (lastRound [0]) 10 0 -
      mainCoefficient (lastRound (movingRound zeroChallenge conjugateChallenge)) 10 0 =
        zeroChallenge * -slope := by
    change 0 - zeroChallenge * slope = _
    rw [zero_sub, mul_neg]
  rw [gap, mul_div_cancel_left₀ _ zeroChallenge_ne_zero, Quadratic.neg_hi, neg_eq_zero] at linear
  exact slope_hi linear

end Tower

end ParanoidChain.Gkr
