import ParanoidChain.Field.Tower
import ParanoidChain.Fri.PhaseA
import ParanoidChain.Lib.Challenges
import ParanoidChain.Lib.Multilinear

/-!
# Phase A is sound

The two fields of a round stand for a quadratic polynomial that always splits the running claim over
zero and one. The true round polynomial splits the true sum, so while the claim is false the two
differ, and at most two values of the challenge make the next claim true. Over eleven rounds that is
the bound of the product sumcheck against every adaptive prover.
-/

namespace ParanoidChain.Fri

open Lib Multilinear Challenges Polynomial

/-! ## The code's tables are multilinear tables -/

section Tables

variable {F : Type} [Field F]

theorem foldHighestVarInplace_eq : (foldHighestVarInplace : List F → F → List F) = bindHighest := rfl

/-- `evaluate_slice` is the multilinear extension. -/
theorem evaluateSlice_eq {evals point : List F} (size : evals.length = 2 ^ point.length) :
    evaluateSlice evals point = extension evals point := by
  rw [evaluateSlice, foldHighestVarInplace_eq]
  change (bindAll evals point.reverse).headD 0 = _
  rw [bindAll_reverse size, List.headD_cons]

theorem foldl_products (pairs : List (F × F)) (start : F) :
    pairs.foldl (fun sum entry => sum + entry.1 * entry.2) start =
      start + (pairs.map fun entry => entry.1 * entry.2).sum := by
  induction pairs generalizing start with
  | nil => simp
  | cons entry pairs ih => rw [List.foldl_cons, ih, List.map_cons, List.sum_cons, add_assoc]

theorem innerProduct_eq_dot (left right : List F) : innerProduct left right = dot left right := by
  rw [innerProduct, foldl_products, zero_add, dot, List.map_zip_eq_zipWith]
  rfl

theorem dot_replicate_zero (count : Nat) (right : List F) :
    dot (List.replicate count 0) right = 0 := by
  induction count generalizing right with
  | zero => rfl
  | succ count ih =>
    cases right with
    | nil => rfl
    | cons value right =>
      have rest := ih right
      rw [dot] at rest ⊢
      rw [List.replicate_succ, List.zipWith_cons_cons, List.sum_cons, zero_mul, zero_add, rest]

/-- The terminal point lists the challenges from the last to the first. -/
theorem phaseATerminalPoint_eq_ok {challenges : List F} {point : Fin phaseAVars → F}
    (ok : phaseATerminalPoint challenges = .ok point) : List.ofFn point = challenges.reverse := by
  simp only [phaseATerminalPoint, checkChallenges, bind_eq_ok, reject_eq_ok, not_not,
    pure_eq_ok] at ok
  obtain ⟨-, size, rfl⟩ := ok
  refine List.ext_getElem (by simp [size]) fun i first second => ?_
  rw [List.length_reverse, size] at second
  rw [List.getElem_ofFn, List.getElem_reverse, List.getD_eq_getElem _ _ (by omega)]
  simp [size]

end Tables

/-! ## A round -/

section Round

variable {F : Type} [Field F]

/-- The quadratic polynomial of a round. -/
noncomputable def ZkPhaseARoundProof.polynomial (message : ZkPhaseARoundProof F) (claim : F) : F[X] :=
  C (claim + message.atOne) + C (claim + message.atInfinity) * X + C message.atInfinity * X ^ 2

theorem ZkPhaseARoundProof.eval_polynomial (message : ZkPhaseARoundProof F) (claim challenge : F) :
    (message.polynomial claim).eval challenge = message.evaluateFromClaim claim challenge := by
  simp only [polynomial, evaluateFromClaim, eval_add, eval_mul, eval_C, eval_X, eval_pow]
  ring

theorem ZkPhaseARoundProof.natDegree_polynomial_le (message : ZkPhaseARoundProof F) (claim : F) :
    (message.polynomial claim).natDegree ≤ 2 := by
  rw [polynomial]
  compute_degree

variable [CharP F 2]

/-- Whatever is sent, the polynomial splits the running claim over zero and one. -/
theorem ZkPhaseARoundProof.polynomial_endpoints (message : ZkPhaseARoundProof F) (claim : F) :
    (message.polynomial claim).eval 0 + (message.polynomial claim).eval 1 = claim := by
  simp only [eval_polynomial, evaluateFromClaim]
  linear_combination (message.atOne + message.atInfinity + claim) * CharTwo.two_eq_zero (R := F)

variable [DecidableEq F]

/-- While the claim is false, at most two challenges make the next one true. -/
theorem card_repairs_le {oracle relation : List F} {half : Nat} (left : oracle.length = half + half)
    (right : relation.length = half + half) (message : ZkPhaseARoundProof F) {claim : F}
    (false_ : claim ≠ dot oracle relation) (S : Finset F) :
    (S.filter fun challenge => message.evaluateFromClaim claim challenge =
      dot (bindHighest oracle challenge) (bindHighest relation challenge)).card ≤ 2 := by
  have differ : message.polynomial claim ≠ roundPolynomial oracle relation := by
    intro same
    apply false_
    rw [← message.polynomial_endpoints claim, same, roundPolynomial_endpoints left right]
  have bound := card_agree_le differ (message.natDegree_polynomial_le claim)
    (natDegree_roundPolynomial_le oracle relation) S
  simpa only [message.eval_polynomial, eval_roundPolynomial] using bound

end Round

/-! ## An adaptive prover -/

section Adaptive

variable {F : Type} [Field F]

/-- The proof of a prover whose messages depend on the earlier challenges. -/
def proofOf (strategy : List F → ZkPhaseARoundProof F) (challenges : List F) : ZkPhaseAProof F :=
  ⟨fun round => strategy (challenges.take round)⟩

/-- The running claim after some challenges. -/
def claimAfter (strategy : List F → ZkPhaseARoundProof F) (initial : F) (challenges : List F) : F :=
  (challenges.zip (List.ofFn fun round : Fin challenges.length =>
    strategy (challenges.take round))).foldl
      (fun claim entry => entry.2.evaluateFromClaim claim entry.1) initial

theorem claimAfter_concat (strategy : List F → ZkPhaseARoundProof F) (initial : F)
    (challenges : List F) (challenge : F) :
    claimAfter strategy initial (challenges ++ [challenge]) =
      (strategy challenges).evaluateFromClaim (claimAfter strategy initial challenges) challenge := by
  have messages : (List.ofFn fun round : Fin (challenges ++ [challenge]).length =>
      strategy ((challenges ++ [challenge]).take round)) =
      (List.ofFn fun round : Fin challenges.length => strategy (challenges.take round)) ++
        [strategy challenges] := by
    refine List.ext_getElem (by simp) fun i first second => ?_
    rw [List.length_ofFn, List.length_append, List.length_singleton] at first
    rw [List.getElem_ofFn]
    by_cases inside : i < challenges.length
    · rw [List.getElem_append_left (by simpa using inside), List.getElem_ofFn,
        List.take_append_of_le_length inside.le]
    · have last : i = challenges.length := by omega
      subst last
      rw [List.getElem_append_right (by simp), List.take_left]
      simp
  rw [claimAfter, messages, List.zip_append (by simp), List.foldl_append]
  rfl

theorem claimAfter_eq {strategy : List F → ZkPhaseARoundProof F} {initial : F} {challenges : List F}
    (size : challenges.length = phaseAVars) :
    (challenges.zip (List.ofFn (proofOf strategy challenges).rounds)).foldl
      (fun claim entry => entry.2.evaluateFromClaim claim entry.1) initial =
        claimAfter strategy initial challenges := by
  rw [claimAfter, proofOf]
  congr 2
  refine List.ext_getElem (by simp [size]) fun i _ _ => ?_
  rw [List.getElem_ofFn, List.getElem_ofFn]

variable [DecidableEq F]

/-- What acceptance with the true oracle value says: the last claim is the product of the two tables
bound everywhere, which is their sum of products. -/
theorem verifyPhaseA_accepts {strategy : List F → ZkPhaseARoundProof F}
    {claims : ZkPhaseARelationClaims F} {oracle relation : List F} {gamma : F} {challenges : List F}
    {value : F} {output : ZkPhaseAVerifierOutput F} (size : oracle.length = phaseAOracleLen)
    (ok : verifyPhaseA (proofOf strategy challenges) claims relation gamma challenges value =
      .ok output)
    (linked : value = extension oracle (List.ofFn output.terminalPoint)) :
    relation.length = phaseAOracleLen ∧
      claimAfter strategy (claims.bank + gamma * (claims.bank + claims.companion)) challenges =
        dot (bindAll oracle challenges) (bindAll relation challenges) := by
  simp only [verifyPhaseA, checkLen, checkChallenges, phaseAInitialClaim, bind_eq_ok, reject_eq_ok,
    not_not, pure_eq_ok, ne_eq] at ok
  obtain ⟨-, -, -, relationSize, -, challengeSize, initial, ⟨-, -, rfl⟩, point, hpoint, -, final,
    rfl⟩ := ok
  have reversed := phaseATerminalPoint_eq_ok hpoint
  have bound (table : List F) (full : table.length = phaseAOracleLen) :
      bindAll table challenges = [extension table (List.ofFn point)] := by
    rw [← bindAll_reverse (by rw [full, List.length_ofFn]; rfl), reversed, List.reverse_reverse]
  refine ⟨relationSize, ?_⟩
  rw [claimAfter_eq challengeSize, evaluateSlice_eq (by rw [relationSize, List.length_ofFn]; rfl)] at final
  rw [final, linked, bound oracle size, bound relation relationSize]
  simp [dot, mul_comm]

end Adaptive

/-! ## Soundness -/

section Soundness

open Tower

open Classical in
/-- Against a false blended claim, at most `22 * |S| ^ 10` challenge vectors make the verifier accept
with the multilinear extension of the oracle as the terminal value. -/
theorem phaseA_sound (oracle relation : List Block256) (size : oracle.length = phaseAOracleLen)
    (gamma : Block256) (claims : ZkPhaseARelationClaims Block256)
    (differs : innerProduct oracle relation ≠
      claims.bank + gamma * (claims.bank + claims.companion))
    (S : Finset Block256) (strategy : List Block256 → ZkPhaseARoundProof Block256)
    (supplied : List Block256 → Block256) :
    ((vectors phaseAVars S).filter fun challenges => ∃ output,
      verifyPhaseA (proofOf strategy (List.ofFn challenges)) claims relation gamma
        (List.ofFn challenges) (supplied (List.ofFn challenges)) = .ok output ∧
      supplied (List.ofFn challenges) = extension oracle (List.ofFn output.terminalPoint)).card ≤
        22 * S.card ^ 10 := by
  by_cases relationSize : relation.length = phaseAOracleLen
  swap
  · -- a relation of another length is rejected before any round
    refine le_of_eq_of_le (Finset.card_eq_zero.2 (Finset.filter_eq_empty_iff.2 ?_)) (Nat.zero_le _)
    rintro challenges - ⟨output, ok, linked⟩
    exact relationSize (verifyPhaseA_accepts size ok linked).1
  set initial := claims.bank + gamma * (claims.bank + claims.companion)
  let lost : List Block256 → Prop := fun earlier =>
    claimAfter strategy initial earlier ≠ dot (bindAll oracle earlier) (bindAll relation earlier)
  have start : lost [] := by
    rw [innerProduct_eq_dot] at differs
    exact differs.symm
  have round : ∀ earlier : List Block256, earlier.length < phaseAVars → lost earlier →
      (S.filter fun challenge => ¬ lost (earlier ++ [challenge])).card ≤ 2 := by
    intro earlier short open_
    have halves (table : List Block256) (full : table.length = phaseAOracleLen) :
        (bindAll table earlier).length = 2 ^ (10 - earlier.length) + 2 ^ (10 - earlier.length) := by
      have left : 10 - earlier.length + 1 + earlier.length = 11 := by
        change _ < 11 at short
        omega
      rw [← two_mul, ← pow_succ']
      refine length_bindAll ?_
      rw [full, left]
      rfl
    simpa only [lost, not_not, claimAfter_concat, bindAll_concat] using
      card_repairs_le (halves oracle size) (halves relation relationSize) (strategy earlier) open_ S
  refine (Finset.card_le_card ?_).trans (card_saved_le S lost (fun _ => 2) phaseAVars start round)
  refine Finset.monotone_filter_right _ fun challenges _ => ?_
  rintro ⟨output, ok, linked⟩
  exact not_not.2 (verifyPhaseA_accepts size ok linked).2

open Classical in
/-- The zero oracle, claimed to have the inner product one with the relation of ones. -/
theorem phaseA_sound_zero_oracle :
    innerProduct (List.replicate phaseAOracleLen (0 : Block256))
        (List.replicate phaseAOracleLen 1) ≠ 1 + zeroChallenge * (1 + 1) ∧
      ((vectors phaseAVars (Finset.univ : Finset Block256)).filter fun challenges =>
        ∃ output : ZkPhaseAVerifierOutput Block256,
          verifyPhaseA (proofOf (fun earlier => ⟨earlier.headD 0, 1⟩) (List.ofFn challenges)) ⟨1, 1⟩
            (List.replicate phaseAOracleLen 1) zeroChallenge (List.ofFn challenges) (0 : Block256) =
              .ok output ∧
          0 = extension (List.replicate phaseAOracleLen 0) (List.ofFn output.terminalPoint)).card ≤
        22 * (Finset.univ : Finset Block256).card ^ 10 := by
  have differs : innerProduct (List.replicate phaseAOracleLen (0 : Block256))
      (List.replicate phaseAOracleLen 1) ≠ 1 + zeroChallenge * (1 + 1) := by
    rw [innerProduct_eq_dot, dot_replicate_zero, CharTwo.add_self_eq_zero, mul_zero, add_zero]
    exact zero_ne_one
  exact ⟨differs, phaseA_sound _ _ List.length_replicate zeroChallenge ⟨1, 1⟩ differs _ _ fun _ => 0⟩

end Soundness

end ParanoidChain.Fri
