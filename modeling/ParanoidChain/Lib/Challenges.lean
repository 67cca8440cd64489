import Mathlib.Algebra.Polynomial.Roots

/-!
# Counting challenges against an adaptive prover

A public-coin argument draws its challenges one after another from a finite set, and the prover
speaks between them. What the prover does is left open: `lost earlier` says that after the challenges
`earlier` it still has a false claim on its hands. If every single challenge lets at most `d i` values
save it in round `i`, then among the vectors of `n` challenges at most `(∑ i, d i) * |S| ^ (n - 1)`
save it at the end. The values that save a prover in one round are mostly those at which two different
polynomials agree.
-/

namespace Lib.Challenges

open Finset Polynomial

section Rounds

variable {F : Type}

/-- The vectors of `n` challenges from a set. -/
def vectors (n : Nat) (S : Finset F) : Finset (Fin n → F) := Fintype.piFinset fun _ => S

theorem mem_vectors {n : Nat} {S : Finset F} {challenges : Fin n → F} :
    challenges ∈ vectors n S ↔ ∀ i, challenges i ∈ S := Fintype.mem_piFinset

@[simp] theorem card_vectors (n : Nat) (S : Finset F) : (vectors n S).card = S.card ^ n := by
  simp [vectors, Fintype.card_piFinset]

theorem ofFn_eq_init_append {n : Nat} (challenges : Fin (n + 1) → F) :
    List.ofFn challenges = List.ofFn (Fin.init challenges) ++ [challenges (Fin.last n)] := by
  rw [List.ofFn_succ', List.concat_eq_append]
  rfl

variable [DecidableEq F]

/-- The vectors over one start, counted by their last challenge. -/
theorem card_over_init_le {n : Nat} (S : Finset F) (good : F → Prop) [DecidablePred good]
    (accept : (Fin (n + 1) → F) → Prop) [DecidablePred accept] (start : Fin n → F)
    (last : ∀ challenges, Fin.init challenges = start → accept challenges →
      good (challenges (Fin.last n))) :
    (((vectors (n + 1) S).filter accept).filter fun challenges => Fin.init challenges = start).card ≤
      (S.filter good).card := by
  refine card_le_card_of_injOn (fun challenges => challenges (Fin.last n)) ?_ ?_
  · intro challenges member
    simp only [coe_filter, Set.mem_ofPred_eq, mem_filter, mem_vectors] at member ⊢
    exact ⟨member.1.1 _, last challenges member.2 member.1.2⟩
  · intro first hfirst second hsecond same
    simp only [coe_filter, Set.mem_ofPred_eq, mem_filter] at hfirst hsecond
    rw [← Fin.snoc_init_self first, ← Fin.snoc_init_self second, hfirst.2, hsecond.2]
    exact congrArg _ same

/-- A prover that starts lost, and that at most `d i` values of challenge `i` save, ends saved for at
most `(∑ i, d i) * |S| ^ (n - 1)` of the challenge vectors. -/
theorem card_saved_le (S : Finset F) (lost : List F → Prop) [DecidablePred lost] (d : Nat → Nat)
    (n : Nat) (start : lost [])
    (round : ∀ earlier : List F, earlier.length < n → lost earlier →
      (S.filter fun challenge => ¬ lost (earlier ++ [challenge])).card ≤ d earlier.length) :
    ((vectors n S).filter fun challenges => ¬ lost (List.ofFn challenges)).card ≤
      (∑ i ∈ range n, d i) * S.card ^ (n - 1) := by
  induction n with
  | zero => simp [start]
  | succ n ih =>
    have before := ih fun earlier short => round earlier (by omega)
    set saved := (vectors n S).filter fun challenges => ¬ lost (List.ofFn challenges)
    -- a vector is saved at its last challenge or was so before
    have fiber : ∀ first ∈ vectors n S,
        (((vectors (n + 1) S).filter fun challenges => ¬ lost (List.ofFn challenges)).filter
          fun challenges => Fin.init challenges = first).card ≤
          (if ¬ lost (List.ofFn first) then S.card else 0) + d n := by
      intro first _
      by_cases open_ : lost (List.ofFn first)
      · rw [if_neg (not_not.2 open_), Nat.zero_add]
        refine (card_over_init_le S (fun challenge => ¬ lost (List.ofFn first ++ [challenge]))
          _ first ?_).trans ?_
        · rintro challenges rfl accepted
          rwa [ofFn_eq_init_append] at accepted
        · simpa using round (List.ofFn first) (by simp) open_
      · rw [if_pos open_]
        refine (card_over_init_le S (fun _ => True) _ first fun _ _ _ => trivial).trans ?_
        rw [filter_true]
        exact Nat.le_add_right _ _
    have mapped : ∀ challenges ∈
        (vectors (n + 1) S).filter (fun challenges => ¬ lost (List.ofFn challenges)),
        Fin.init challenges ∈ vectors n S := by
      intro challenges member
      exact mem_vectors.2 fun i => mem_vectors.1 (mem_filter.1 member).1 _
    calc _ = ∑ first ∈ vectors n S, _ := card_eq_sum_card_fiberwise mapped
      _ ≤ ∑ first ∈ vectors n S, ((if ¬ lost (List.ofFn first) then S.card else 0) + d n) :=
          sum_le_sum fiber
      _ = saved.card * S.card + S.card ^ n * d n := by
          rw [sum_add_distrib, ← sum_filter, sum_const, sum_const, card_vectors, smul_eq_mul,
            smul_eq_mul]
      _ ≤ (∑ i ∈ range n, d i) * S.card ^ (n - 1) * S.card + S.card ^ n * d n := by gcongr
      _ = (∑ i ∈ range (n + 1), d i) * S.card ^ (n + 1 - 1) := by
          rw [sum_range_succ, Nat.add_sub_cancel]
          cases n with
          | zero => simp
          | succ n => rw [Nat.add_sub_cancel, pow_succ]; ring

end Rounds

section Roots

variable {F : Type} [Field F] [DecidableEq F]

/-- Two different polynomials of degree at most `d` agree on at most `d` challenges. -/
theorem card_agree_le {p q : F[X]} {d : Nat} (differ : p ≠ q) (degreeLeft : p.natDegree ≤ d)
    (degreeRight : q.natDegree ≤ d) (S : Finset F) :
    (S.filter fun challenge => p.eval challenge = q.eval challenge).card ≤ d := by
  have nonzero : p - q ≠ 0 := sub_ne_zero.2 differ
  have roots : (S.filter fun challenge => p.eval challenge = q.eval challenge).val ⊆
      (p - q).roots := by
    intro challenge member
    have agree := (mem_filter.1 (Finset.mem_def.2 member)).2
    rw [mem_roots nonzero, IsRoot.def, eval_sub, agree, sub_self]
  refine (card_le_degree_of_subset_roots roots).trans ?_
  simpa using natDegree_sub_le_of_le degreeLeft degreeRight

end Roots

end Lib.Challenges
